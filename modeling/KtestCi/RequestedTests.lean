import KtestCi.CheckDmesg
import KtestCi.ShellWords
import KtestCi.TextMatches

/-!
# The tests that are requested

`parse_test_deps` flattens the listing of a test file to one line and looks for each of the
requested names in it with `grep -w`. A name that is found is kept, any other one is skipped
with a message, and without any the run ends with an error. `grep -w` finds a name where no
letter, digit or underscore stands next to it, and so also inside of a longer name with
another character there.
-/

namespace KtestCi
namespace RequestedTests

open CheckDmesg (isWordChar)

inductive Outcome
  | exits (skipped error : List Text)
  | runs (skipped : List Text) (testargs tests : Text)
  deriving DecidableEq

def staleMessage (t : Text) : Text :=
  "Test ".toList ++ t ++ " not found - skipping (stale job matrix?)".toList

/-- The variables of the loop: what was found, and the messages so far. -/
structure Found where
  found : Text
  skipped : List Text

/-- One round of the loop over the requested names. A name without a character that is special
in a regular expression is looked for as it is. -/
def checkTest (tests : Text) (s : Found) (t : Text) : Found :=
  if Text.occursAsWord isWordChar t tests then { s with found := s.found ++ ' ' :: t }
  else { s with skipped := s.skipped ++ [staleMessage t] }

/-- `parse_test_deps`, from the listing on: the text that `list-tests` printed, whether the
file says that it does not know its tests, and the requested ones. -/
def parseTestDeps (basename listing : Text) (testsUnknown : Bool) (testargs : Text) : Outcome :=
  let tests := [' '].intercalate (Text.shellWords listing)
  if tests.isEmpty && !testsUnknown then
    .exits [] ["No tests found".toList, "TEST FAILED".toList]
  else if testargs.isEmpty then .runs [] testargs tests
  else if testsUnknown then .runs [] testargs testargs
  else
    let s := (Text.shellWords testargs).foldl (checkTest tests) ⟨[], []⟩
    if s.found.isEmpty then
      .exits s.skipped ["none of the requested tests exist in ".toList ++ basename]
    else .runs s.skipped s.found s.found

namespace Outcome

def Exits : Outcome → Prop
  | .exits _ _ => True
  | .runs _ _ _ => False

def skipped : Outcome → List Text
  | .exits skipped _ => skipped
  | .runs skipped _ _ => skipped

def kept : Outcome → List Text
  | .exits _ _ => []
  | .runs _ _ tests => Text.shellWords tests

end Outcome

/-- The names asked for: all tests of the file, if none is requested. -/
def asked (listed requested : List Text) : List Text :=
  if requested.isEmpty then listed else requested

/-- The requested names that are listed are kept in their order, and the others reported. -/
structure Selects (listed requested : List Text) (o : Outcome) : Prop where
  kept : o.kept = (asked listed requested).filter (fun q => decide (q ∈ listed))
  skipped : listed ≠ [] →
    o.skipped = ((asked listed requested).filter (fun q => decide (q ∉ listed))).map staleMessage
  /-- A file without a test is reported as a whole. -/
  noTests : listed = [] → o = .exits [] ["No tests found".toList, "TEST FAILED".toList]
  exits : o.Exits ↔ ∀ q ∈ asked listed requested, q ∉ listed

theorem foldl_checkTest (tests : Text) (requested : List Text) (s : Found) :
    requested.foldl (checkTest tests) s =
      ⟨s.found ++ (requested.filter (fun t => Text.occursAsWord isWordChar t tests)).flatMap
          (fun t => ' ' :: t),
        s.skipped ++ (requested.filter (fun t => !Text.occursAsWord isWordChar t tests)).map
          staleMessage⟩ := by
  induction requested generalizing s with
  | nil => simp
  | cons t requested ih =>
    rw [List.foldl_cons, ih]
    by_cases ht : Text.occursAsWord isWordChar t tests = true
    · simp [checkTest, ht]
    · simp [checkTest, ht]

variable {listed requested : List Text}

theorem occursAsWord_listed {q : Text} (hq : Text.ShellWord q) :
    Text.occursAsWord isWordChar q ([' '].intercalate listed) = true ↔
      ∃ n ∈ listed, Text.occursAsWord isWordChar q n = true := by
  have hblank : ' ' ∉ q := fun hmem => absurd (hq.noBlank _ hmem) (by decide)
  exact Text.occursAsWord_intercalate (by decide) hblank hq.nonempty listed

theorem intercalate_isEmpty {words : List Text} (h : ∀ w ∈ words, Text.ShellWord w) :
    ([' '].intercalate words).isEmpty = words.isEmpty := by
  cases words with
  | nil => rfl
  | cons w words =>
    have hne := (h w List.mem_cons_self).nonempty
    cases words with
    | nil => simp [hne]
    | cons w' words => simp [List.intercalate_cons_cons]

theorem occursAsWord_of_mem {q : Text} (hq : Text.ShellWord q) (hmem : q ∈ listed) :
    Text.occursAsWord isWordChar q ([' '].intercalate listed) = true :=
  (occursAsWord_listed hq).mpr ⟨q, hmem, Text.occursAsWord_self q⟩

theorem found_iff_mem_iff (hrequested : ∀ q ∈ requested, Text.ShellWord q) :
    (∀ q ∈ requested, q ∉ listed → ∀ n ∈ listed, ¬ Text.occursAsWord isWordChar q n = true) ↔
      ∀ q ∈ requested, (Text.occursAsWord isWordChar q ([' '].intercalate listed) = true ↔
        q ∈ listed) := by
  constructor
  · intro h q hq
    refine ⟨?_, occursAsWord_of_mem (hrequested q hq)⟩
    intro hfound
    obtain ⟨n, hn, hword⟩ := (occursAsWord_listed (hrequested q hq)).mp hfound
    by_contra hnot
    exact h q hq hnot n hn hword
  · intro h q hq hnot n hn hword
    exact hnot ((h q hq).mp ((occursAsWord_listed (hrequested q hq)).mpr ⟨n, hn, hword⟩))

theorem parseTestDeps_noTests (basename testargs : Text) : parseTestDeps basename [] false testargs =
    .exits [] ["No tests found".toList, "TEST FAILED".toList] := rfl

section Runs

variable (hlisted : ∀ n ∈ listed, Text.ShellWord n) (hrequested : ∀ q ∈ requested, Text.ShellWord q)

include hlisted

theorem flattened_listing :
    [' '].intercalate (Text.shellWords (listed.flatMap (fun n => n ++ ['\n']))) =
      [' '].intercalate listed := by
  rw [Text.shellWords_flatMap_filter (by decide) (fun n hn => (hlisted n hn).noBlank),
    List.filter_eq_self.mpr]
  intro n hn
  simpa using (hlisted n hn).nonempty

theorem parseTestDeps_all (basename : Text) (hne : listed ≠ []) :
    parseTestDeps basename (listed.flatMap (fun n => n ++ ['\n'])) false [] =
      .runs [] [] ([' '].intercalate listed) := by
  have hsome : ([' '].intercalate listed).isEmpty = false := by
    simpa [intercalate_isEmpty hlisted] using hne
  simp [parseTestDeps, flattened_listing hlisted, hsome]

include hrequested

theorem parseTestDeps_requested (basename : Text) (hne : listed ≠ []) (hsome : requested ≠ []) :
    let found := requested.filter
      (fun t => Text.occursAsWord isWordChar t ([' '].intercalate listed))
    let skipped := (requested.filter
      (fun t => !Text.occursAsWord isWordChar t ([' '].intercalate listed))).map staleMessage
    let o := parseTestDeps basename (listed.flatMap (fun n => n ++ ['\n'])) false
      ([' '].intercalate requested)
    o.kept = found ∧ o.skipped = skipped ∧ (o.Exits ↔ found = []) := by
  intro found skipped o
  have htests : ([' '].intercalate listed).isEmpty = false := by
    simpa [intercalate_isEmpty hlisted] using hne
  have hargs : ([' '].intercalate requested).isEmpty = false := by
    simpa [intercalate_isEmpty hrequested] using hsome
  have hwords : Text.shellWords (found.flatMap (fun t => ' ' :: t)) = found :=
    Text.shellWords_flatMap_cons (fun w hw => hrequested w (List.mem_of_mem_filter hw))
  have ho : o = if (found.flatMap (fun t => ' ' :: t)).isEmpty then
      .exits skipped ["none of the requested tests exist in ".toList ++ basename]
    else .runs skipped (found.flatMap (fun t => ' ' :: t)) (found.flatMap (fun t => ' ' :: t)) := by
    simp only [o, parseTestDeps, flattened_listing hlisted, htests, hargs,
      Text.shellWords_intercalate hrequested, foldl_checkTest]
    rfl
  cases hfound : found with
  | nil =>
    rw [hfound] at ho
    simp [ho, Outcome.kept, Outcome.skipped, Outcome.Exits]
  | cons t ts =>
    have hsome : ((t :: ts).flatMap (fun t => ' ' :: t)).isEmpty = false := rfl
    rw [hfound] at ho hwords
    rw [hsome, if_neg Bool.false_ne_true] at ho
    refine ⟨?_, ?_, ?_⟩
    · rw [ho]
      exact hwords
    · rw [ho]
      rfl
    · simp [ho, Outcome.Exits]

/-- The selection is the one by membership exactly if no requested name that is not listed
occurs as a word inside of a listed one. -/
theorem parseTestDeps_selects_iff (basename : Text) :
    Selects listed requested (parseTestDeps basename (listed.flatMap (fun n => n ++ ['\n'])) false
        ([' '].intercalate requested)) ↔
      ∀ q ∈ requested, q ∉ listed → ∀ n ∈ listed, ¬ Text.occursAsWord isWordChar q n = true := by
  rcases eq_or_ne listed [] with rfl | hne
  · -- a file without tests ends the run before any name is looked for
    rw [List.flatMap_nil, parseTestDeps_noTests]
    refine iff_of_true ⟨?_, fun h => absurd rfl h, fun _ => rfl, ?_⟩ (by simp)
    · simp [Outcome.kept]
    · simp [Outcome.Exits]
  rcases eq_or_ne requested [] with rfl | hsome
  · -- without a request every listed test is asked for
    refine iff_of_true ?_ (by simp)
    rw [List.intercalate_nil, parseTestDeps_all hlisted basename hne]
    refine ⟨?_, ?_, fun h => absurd h hne, ?_⟩
    · have hself : listed.filter (fun q => decide (q ∈ listed)) = listed := by
        simp [List.filter_eq_self]
      simp [Outcome.kept, asked, Text.shellWords_intercalate hlisted, hself]
    · simp [Outcome.skipped, asked]
    · obtain ⟨n, hn⟩ := List.exists_mem_of_ne_nil listed hne
      simpa [Outcome.Exits, asked] using ⟨n, hn⟩
  · have hasked : asked listed requested = requested := by simp [asked, hsome]
    obtain ⟨hkept, hskipped, hexits⟩ :=
      parseTestDeps_requested hlisted hrequested basename hne hsome
    rw [found_iff_mem_iff hrequested]
    constructor
    · intro h q hq
      have hfilter := congrArg (q ∈ ·) (hkept.symm.trans h.kept)
      simpa [hasked, hq] using hfilter
    · intro h
      have hfound : requested.filter (fun t => Text.occursAsWord isWordChar t ([' '].intercalate listed)) =
          requested.filter (fun q => decide (q ∈ listed)) := by
        apply List.filter_congr
        intro q hq
        rw [Bool.eq_iff_iff, h q hq, decide_eq_true_iff]
      have hlost : requested.filter (fun t => !Text.occursAsWord isWordChar t ([' '].intercalate listed)) =
          requested.filter (fun q => decide (q ∉ listed)) := by
        apply List.filter_congr
        intro q hq
        rw [Bool.eq_iff_iff, Bool.not_eq_true', ← Bool.not_eq_true, h q hq, decide_eq_true_iff]
      refine ⟨?_, ?_, fun h => absurd h hne, ?_⟩
      · rw [hkept, hasked, hfound]
      · intro _
        rw [hskipped, hasked, hlost]
      · rw [hexits, hasked, hfound, List.filter_eq_nil_iff]
        simp

end Runs

/-- A request for `ext4` alone, of a file that lists `quota` and `ext4-quota`. -/
theorem ext4_found_in_ext4_quota :
    let listed := ["quota".toList, "ext4-quota".toList]
    let o := parseTestDeps "fs".toList (listed.flatMap (fun n => n ++ ['\n'])) false "ext4".toList
    o = .runs [] " ext4".toList " ext4".toList ∧ ¬ Selects listed ["ext4".toList] o := by
  intro listed o
  have ho : o = .runs [] " ext4".toList " ext4".toList := by decide
  refine ⟨ho, ?_⟩
  intro h
  have hkept := h.kept
  rw [ho] at hkept
  exact absurd hkept (by decide)

/-- Two of three requested names, the third one part of another name without being a word. -/
theorem parseTestDeps_selects_quota :
    let listed := ["quota".toList, "quota_v2".toList]
    let requested := ["quota_v2".toList, "v2".toList, "quota".toList]
    Selects listed requested (parseTestDeps "fs".toList (listed.flatMap (fun n => n ++ ['\n'])) false
      ([' '].intercalate requested)) := by
  intro listed requested
  have hrequested : ∀ q ∈ requested, Text.ShellWord q := by
    intro q hq
    have hall : requested.all (fun w => !w.isEmpty && w.all (fun c => !Text.isShellBlank c)) = true := by
      decide
    have hword := List.all_eq_true.mp hall q hq
    rw [Bool.and_eq_true] at hword
    exact Text.shellWord_of_all (by simpa using hword.1) hword.2
  have hlisted : ∀ n ∈ listed, Text.ShellWord n := by
    intro n hn
    have hsub : listed ⊆ requested := by decide
    exact hrequested n (hsub hn)
  exact (parseTestDeps_selects_iff hlisted hrequested "fs".toList).mpr (by decide)

end RequestedTests
end KtestCi
