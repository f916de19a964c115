import KtestCi.TextSearch

/-!
# Names of result directories

A subtest's result directory, and the key of its entry in a commit's results, is the
dotted test path, qualified by kernel and environment, followed by the subtest.
-/

namespace KtestCi

def subtestFullName (test subtest : Text) : Text :=
  ((test.replace ".ktest".toList []) ++ '.' :: subtest).replaceChar '/' '.'

/-- A kernel-store id as a path component. -/
def sanitizeKernel (kernel : Text) : Text := kernel.replaceChar '/' '_'

def testNameWithKernel (test kernel : Text) : Text :=
  let test := (test.replace ".ktest".toList []).replaceChar '/' '.'
  if kernel.isEmpty then test else test ++ '@' :: sanitizeKernel kernel

def resultBasename (test kernel env : Text) : Text :=
  let base := testNameWithKernel test kernel
  if env.isEmpty then base else base ++ '@' :: env

/-- The name of a subtest's result directory and the key of its result. -/
def subtestResultKey (test subtest kernel env : Text) : Text :=
  resultBasename test kernel env ++ '.' :: subtest.replaceChar '/' '.'

theorem slash_notMem_resultBasename {test kernel env : Text} (henv : '/' ∉ env) :
    '/' ∉ resultBasename test kernel env := by
  have hname : '/' ∉ testNameWithKernel test kernel := by
    unfold testNameWithKernel
    split_ifs
    · exact Text.notMem_replaceChar (by decide) _
    · simp only [List.mem_append, List.mem_cons, not_or]
      exact ⟨Text.notMem_replaceChar (by decide) _, by decide, Text.notMem_replaceChar (by decide) _⟩
  unfold resultBasename
  split_ifs
  · exact hname
  · simp only [List.mem_append, List.mem_cons, not_or]
    exact ⟨hname, by decide, henv⟩

theorem slash_notMem_subtestResultKey {test subtest kernel env : Text} (henv : '/' ∉ env) :
    '/' ∉ subtestResultKey test subtest kernel env := by
  simp only [subtestResultKey, List.mem_append, List.mem_cons, not_or]
  exact ⟨slash_notMem_resultBasename henv, by decide, Text.notMem_replaceChar (by decide) _⟩

example : subtestResultKey "fs/bcachefs/ec.ktest".toList "generic/001".toList
    "upstream/stable-default".toList "ktest_x=1".toList =
      "fs.bcachefs.ec@upstream_stable-default@ktest_x=1.generic.001".toList := by
  decide +kernel

end KtestCi
