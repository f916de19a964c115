import KtestCi.ResultKeys
import KtestCi.ResultsCapnp
import Mathlib.Algebra.Ring.Nat

/-!
# The output directory

The part of the output directory that results live in: the capnp files of the commits, the
temporary files they are written through, and one directory per commit with a directory for
every result. File operations that can fail carry how far they got.
-/

namespace KtestCi

/-- A file of a result directory. A content that is not text is `none`; the modification
time is in nanoseconds. -/
structure DiskFile where
  content : Option Text
  mtime : ℤ
  deriving DecidableEq

/-- A result directory, by file name. -/
abbrev ResultDir := TextMap DiskFile

/-- The output directory: its files by name, and the result directories of every commit. -/
structure OutputDir where
  files : TextMap CapnpFile
  commits : TextMap (TextMap ResultDir)

def capnpName (commitId : Text) : Text := commitId ++ ".capnp".toList

/-- The temporary file of one write; the tag is made of process id and sequence number. -/
def capnpTempName (commitId tag : Text) : Text :=
  commitId ++ ".capnp.".toList ++ tag ++ ".new".toList

/-- How far a write of a commit's capnp got. -/
inductive WriteOutcome where
  | createFailed | writeFailed | flushFailed | renameFailed | written
  deriving DecidableEq

/-- One call of `results_to_capnp`: the tag of its temporary file and its outcome. -/
structure CapnpWrite where
  tag : Text
  outcome : WriteOutcome

namespace OutputDir

def capnp (o : OutputDir) (commitId : Text) : Option CapnpFile := o.files[capnpName commitId]?

/-- The results are written to a temporary file, which replaces the commit's file in the
last step only. -/
def resultsToCapnp (o : OutputDir) (io : CapnpWrite) (commitId : Text)
    (commitMessage : Option Text) (results : TestResultsMap) : OutputDir :=
  let temp := capnpTempName commitId io.tag
  let file := CapnpFile.message (resultsMessage commitId commitMessage results)
  match io.outcome with
  | .createFailed => o
  | .writeFailed | .flushFailed => { o with files := o.files.insert temp .unreadable }
  | .renameFailed => { o with files := o.files.insert temp file }
  | .written => { o with files := (o.files.erase temp).insert (capnpName commitId) file }

@[simp] theorem commits_resultsToCapnp (o : OutputDir) (io : CapnpWrite) (c : Text)
    (cm : Option Text) (m : TestResultsMap) : (o.resultsToCapnp io c cm m).commits = o.commits := by
  unfold resultsToCapnp
  cases io.outcome <;> rfl

theorem capnpName_inj {c c' : Text} (h : capnpName c = capnpName c') : c = c' :=
  List.append_cancel_right h

theorem capnpTempName_ne_capnpName (c tag c' : Text) : capnpTempName c tag ≠ capnpName c' := by
  intro h
  have hlast : (capnpTempName c tag).getLast? = (capnpName c').getLast? := congrArg _ h
  unfold capnpTempName capnpName at hlast
  rw [List.getLast?_append_of_ne_nil _ (by decide), List.getLast?_append_of_ne_nil _ (by decide)]
    at hlast
  exact absurd hlast (by decide)

/-- A write replaces the file of its own commit, if it gets to the end, and no other. -/
theorem capnp_resultsToCapnp (o : OutputDir) (io : CapnpWrite) (c : Text) (cm : Option Text)
    (m : TestResultsMap) (c' : Text) : (o.resultsToCapnp io c cm m).capnp c' =
      if c = c' ∧ io.outcome = .written then some (.message (resultsMessage c cm m))
      else o.capnp c' := by
  have htemp := capnpTempName_ne_capnpName c io.tag c'
  unfold resultsToCapnp capnp
  cases ho : io.outcome with
  | createFailed => simp
  | writeFailed => simp [TextMap.getElem?_insert, htemp]
  | flushFailed => simp [TextMap.getElem?_insert, htemp]
  | renameFailed => simp [TextMap.getElem?_insert, htemp]
  | written =>
    by_cases hc : c = c'
    · simp [hc]
    · have hname : capnpName c ≠ capnpName c' := fun h => hc (capnpName_inj h)
      simp [TextMap.getElem?_insert, TextMap.getElem?_erase, hc, hname, htemp]

end OutputDir

/-- A decimal `u64`, as `str::parse` reads it: an optional plus sign and digits only. -/
def parseU64 (t : Text) : Option UInt64 :=
  let digits := if t.head? = some '+' then t.tail else t
  if digits.isEmpty || !digits.all Char.isDigit then none
  else
    let n := digits.foldl (fun n c => 10 * n + (c.toNat - '0'.toNat)) 0
    if n < 2 ^ 64 then some (UInt64.ofNat n) else none

def readTestResult (testdir : ResultDir) : Option TestResult :=
  match testdir["status".toList]? with
  | none => none
  | some f => match f.content with
    | none => none
    | some status =>
      let duration := (testdir["duration".toList]?.bind DiskFile.content).getD "0".toList
      some ⟨TestStatus.fromStr status, f.mtime, (parseU64 duration).getD 0⟩

namespace OutputDir

def resultDir (o : OutputDir) (commitId key : Text) : Option ResultDir :=
  o.commits[commitId]?.bind (fun dirs => dirs[key]?)

def setResultDir (o : OutputDir) (commitId key : Text) (dir : ResultDir) : OutputDir :=
  let dirs := o.commits[commitId]?.getD ∅
  { o with commits := o.commits.insert commitId (dirs.insert key dir) }

theorem resultDir_setResultDir (o : OutputDir) (c k : Text) (dir : ResultDir) (c' k' : Text) :
    (o.setResultDir c k dir).resultDir c' k' =
      if c = c' ∧ k = k' then some dir else o.resultDir c' k' := by
  unfold setResultDir resultDir
  rw [TextMap.getElem?_insert]
  by_cases hc : c = c'
  · subst hc
    cases o.commits[c]? with
    | none => by_cases hk : k = k' <;> simp [hk]
    | some dirs => by_cases hk : k = k' <;> simp [TextMap.getElem?_insert, hk]
  · simp [hc]

/-- The results of a commit as its result directories have them. -/
def commitdirGetResultsFs (o : OutputDir) (commitId : Text) : TestResultsMap :=
  match o.commits[commitId]? with
  | none => ∅
  | some dirs => dirs.filterMap (fun _ d => readTestResult d)

def commitUpdateResults (o : OutputDir) (io : CapnpWrite) (commitId : Text) : OutputDir :=
  o.resultsToCapnp io commitId none (o.commitdirGetResultsFs commitId)

theorem getElem?_commitdirGetResultsFs (o : OutputDir) (c k : Text) :
    (o.commitdirGetResultsFs c)[k]? = (o.resultDir c k).bind readTestResult := by
  unfold commitdirGetResultsFs resultDir
  cases o.commits[c]? with
  | none => simp
  | some dirs => simp

end OutputDir

/-- A key that names an entry of the commit's directory. -/
def IsEntryName (key : Text) : Prop :=
  key ≠ [] ∧ '/' ∉ key ∧ key ≠ ['.'] ∧ key ≠ ['.', '.']

instance (key : Text) : Decidable (IsEntryName key) := by
  unfold IsEntryName
  infer_instance

/-- The keys that batches write under name entries: the environment has been encoded, so it
holds no slash, and neither the test nor the subtest is nameless. -/
theorem isEntryName_subtestResultKey {test subtest kernel env : Text} (henv : '/' ∉ env)
    (htest : resultBasename test kernel env ≠ []) (hsubtest : subtest ≠ []) :
    IsEntryName (subtestResultKey test subtest kernel env) := by
  have hlong : 3 ≤ (subtestResultKey test subtest kernel env).length := by
    have hbase := List.length_pos_iff.mpr htest
    have hsub := List.length_pos_iff.mpr hsubtest
    simp only [subtestResultKey, List.length_append, List.length_cons, Text.replaceChar,
      List.length_map]
    omega
  refine ⟨?_, slash_notMem_subtestResultKey henv, ?_, ?_⟩ <;> intro heq <;> simp [heq] at hlong

/-- What a removal leaves undetermined: the remains of a directory that could not be removed
completely, and what happens for a path that is no entry of the commit's directory. -/
structure RemoveEffect where
  remains : Text → Text → ResultDir → Option ResultDir
  elsewhere : OutputDir → Text → Text → OutputDir

/-- `remove_dir_all` of the directory of a key. -/
def OutputDir.removeDirAll (o : OutputDir) (fs : RemoveEffect) (commitId key : Text) : OutputDir :=
  if IsEntryName key then
    let remove (dirs : TextMap ResultDir) := dirs.alter key (fun d => d.bind (fs.remains commitId key))
    { o with commits := o.commits.modify commitId remove }
  else fs.elsewhere o commitId key

theorem OutputDir.files_removeDirAll (o : OutputDir) (fs : RemoveEffect) (c k : Text)
    (hk : IsEntryName k) : (o.removeDirAll fs c k).files = o.files := by
  simp [OutputDir.removeDirAll, hk]

theorem OutputDir.contains_removeDirAll (o : OutputDir) (fs : RemoveEffect) (c k c' : Text)
    (hk : IsEntryName k) :
    (o.removeDirAll fs c k).commits.contains c' = o.commits.contains c' := by
  simp [OutputDir.removeDirAll, hk, Std.ExtTreeMap.contains_modify]

end KtestCi
