import KtestCi.VerdictLines
import KtestCi.ShellWords

/-!
# The verdict of the test runner in the guest

`testrunner` runs the subtests once, or over and over until one of them fails, and then
prints one line for the whole run. Before that line it looks at the taint of the kernel.
The variable that allows a taint holds the words `true` and `false`, and it is tested as a
text: both words are non-empty, so the check does not fire.
-/

namespace KtestCi

namespace RunTests

/-- The subtests `run_tests` adds to `tests_failed`; it stops at the first one under failfast
or when there is only one subtest to run. -/
def failedTests (stops : Bool) : List (Text × Verdict) → List Text
  | [] => []
  | (i, .failed) :: rest => if stops then [i] else i :: failedTests stops rest
  | (_, .passed) :: rest => failedTests stops rest
  | (_, .notrun _) :: rest => failedTests stops rest

def exitStatus (ktestFailfast : Bool) (tests : List Text) (verdicts : ℕ → Verdict) : UInt8 :=
  UInt8.ofNat (failedTests (ktestFailfast || tests.length == 1)
    (tests.mapIdx (fun n i => (i, verdicts n)))).length

def Verdict.isFailed : Verdict → Bool
  | .failed => true
  | .passed | .notrun _ => false

def failures (tests : List Text) (verdicts : ℕ → Verdict) : ℕ :=
  (tests.mapIdx (fun n _ => verdicts n)).countP Verdict.isFailed

/-- Nothing is left out of `tests_failed` when the loop does not stop early, or has no second
subtest to stop before. -/
theorem length_failedTests {stops : Bool} {runs : List (Text × Verdict)}
    (h : stops = true → runs.length = 1) :
    (failedTests stops runs).length = (runs.map Prod.snd).countP Verdict.isFailed := by
  induction runs with
  | nil => rfl
  | cons run runs ih =>
    obtain ⟨i, v⟩ := run
    cases stops with
    | true =>
      obtain rfl : runs = [] := by simpa using h rfl
      cases v <;> rfl
    | false =>
      have ih := ih (by simp)
      cases v <;> simp [failedTests, ih, Verdict.isFailed, List.countP_cons]

theorem exitStatus_eq_failures (tests : List Text) (verdicts : ℕ → Verdict) :
    exitStatus false tests verdicts = UInt8.ofNat (failures tests verdicts) := by
  have hmap : (tests.mapIdx (fun n i => (i, verdicts n))).map Prod.snd =
      tests.mapIdx (fun n _ => verdicts n) := by
    apply List.ext_getElem
    · simp
    · intro n h h'
      simp
  rw [exitStatus, length_failedTests (by simp), hmap, failures]

theorem failures_eq_zero_iff (tests : List Text) (verdicts : ℕ → Verdict) :
    failures tests verdicts = 0 ↔ ∀ n < tests.length, verdicts n ≠ .failed := by
  have hfailed : ∀ v : Verdict, v.isFailed = true ↔ v = .failed := by
    intro v
    cases v <;> simp [Verdict.isFailed]
  simp only [failures, List.countP_eq_zero, List.mem_mapIdx, hfailed]
  constructor
  · exact fun h n hn => h _ ⟨n, hn, rfl⟩
  · rintro h _ ⟨n, hn, rfl⟩
    exact h n hn

/-- The status is the number of failures in one byte, so it is right unless a positive
multiple of 256 subtests fail. -/
theorem exitStatus_right_iff (tests : List Text) (verdicts : ℕ → Verdict) :
    (exitStatus false tests verdicts = 0 ↔ ∀ n < tests.length, verdicts n ≠ .failed) ↔
      failures tests verdicts = 0 ∨ ¬ 256 ∣ failures tests verdicts := by
  have hzero : exitStatus false tests verdicts = 0 ↔ 256 ∣ failures tests verdicts := by
    rw [exitStatus_eq_failures, ← UInt8.toNat_inj, UInt8.toNat_ofNat', Nat.dvd_iff_mod_eq_zero]
    rfl
  rw [hzero, ← failures_eq_zero_iff]
  constructor
  · intro h
    by_cases hdvd : 256 ∣ failures tests verdicts
    · exact .inl (h.mp hdvd)
    · exact .inr hdvd
  · rintro (h | h)
    · simp [h]
    · exact iff_of_false h (fun hnone => h (by simp [hnone]))

/-- A suite of 256 subtests that all fail. -/
theorem exitStatus_zero_when_256_fail :
    ¬ ∀ (tests : List Text) (verdicts : ℕ → Verdict),
      exitStatus false tests verdicts = 0 ↔ ∀ n < tests.length, verdicts n ≠ .failed := by
  intro h
  have hlength : (List.replicate 256 "a".toList).length = 256 := List.length_replicate
  have hfailures : failures (List.replicate 256 "a".toList) (fun _ => .failed) = 256 := by
    rw [failures, List.countP_eq_length.mpr]
    · rw [List.length_mapIdx, hlength]
    · intro v hv
      obtain ⟨n, hn, rfl⟩ := List.mem_mapIdx.mp hv
      rfl
  have hstatus : exitStatus false (List.replicate 256 "a".toList) (fun _ => .failed) = 0 := by
    rw [exitStatus_eq_failures, hfailures]
    rfl
  exact (h _ _).mp hstatus 0 (by rw [hlength]; exact Nat.succ_pos 255) rfl

end RunTests

/-- What the verdicts of the subtests are when `run-tests` runs once more. -/
abbrev Iteration := ℕ → RunTests.Verdict

/-- `[[ $s ]]`: the text is not empty. -/
def Text.conditional (s : Text) : Bool := !s.isEmpty

/-- What `testrunner` is given: the variables of the environment file and the kernel. -/
structure TestrunnerVars where
  ktestTests : Text
  ktestTestsUnknown : Bool
  ktestLoop : Bool
  ktestFailfast : Bool
  declaresAllowTaint : Bool
  taint : ℕ
  release : Text

namespace TestrunnerVars

/-- The default of the prelude, unless the test calls `allow_taint`. -/
def ktestAllowTaint (v : TestrunnerVars) : Text :=
  if v.declaresAllowTaint then "true".toList else "false".toList

def runTests (v : TestrunnerVars) (it : Iteration) : UInt8 :=
  RunTests.exitStatus v.ktestFailfast v.ktestTests.shellWords it

def checkTaint (v : TestrunnerVars) : Bool := v.taint != 0 && !v.ktestAllowTaint.conditional

end TestrunnerVars

/-- A line `testrunner` prints itself. -/
inductive RunnerLine where
  | kernelVersion (release : Text)
  | noTestsFound
  | noTestsToRun
  | successfulIterations (iterations : ℕ)
  | kernelTainted
  | testFailed
  | testSuccess
  deriving DecidableEq

def RunnerLine.text : RunnerLine → Text
  | kernelVersion release => "Kernel version: ".toList ++ release
  | noTestsFound => "No tests found".toList
  | noTestsToRun => "No tests to run".toList
  | successfulIterations iterations => "SUCCESSFUL ITERATIONS ".toList ++ Text.ofInt iterations
  | kernelTainted => "Failure because kernel tainted - check log for warnings".toList
  | testFailed => "TEST FAILED".toList
  | testSuccess => "TEST SUCCESS".toList

structure TestrunnerRun where
  performed : List Iteration
  lines : List RunnerLine

def TestrunnerRun.output (r : TestrunnerRun) : List Text := r.lines.map RunnerLine.text

/-- The loop over `run-tests`: what it performed, the last status and what it printed.
It has not ended when it asks for one iteration more than are given. -/
def TestrunnerVars.mainLoop (v : TestrunnerVars) : ℕ → List Iteration → Option (TestrunnerRun × UInt8)
  | _, [] => none
  | iterations, it :: its =>
    let ret := v.runTests it
    if ret ≠ 0 then some (⟨[it], []⟩, ret)
    else if v.ktestLoop = false then some (⟨[it], []⟩, ret)
    else (v.mainLoop (iterations + 1) its).map (fun r =>
      (⟨it :: r.1.performed, .successfulIterations (iterations + 1) :: r.1.lines⟩, r.2))

def TestrunnerVars.verdict (v : TestrunnerVars) (ret : UInt8) : List RunnerLine :=
  if v.checkTaint then [.kernelTainted, .testFailed]
  else if ret = 0 then [.kernelVersion v.release, .testSuccess]
  else [.kernelVersion v.release, .testFailed]

/-- `testrunner` from the line with the version of the kernel on. -/
def TestrunnerVars.testrunner (v : TestrunnerVars) (its : List Iteration) : Option TestrunnerRun :=
  if v.ktestTests.isEmpty && !v.ktestTestsUnknown then
    some ⟨[], [.kernelVersion v.release, .noTestsFound, .testFailed]⟩
  else if v.ktestTests.shellWords = ["none".toList] then
    some ⟨[], [.kernelVersion v.release, .noTestsToRun, .testFailed]⟩
  else (v.mainLoop 0 its).map (fun r =>
    ⟨r.1.performed, .kernelVersion v.release :: r.1.lines ++ v.verdict r.2⟩)

def TestrunnerVars.runsNothing (v : TestrunnerVars) : Bool :=
  v.ktestTests.isEmpty && !v.ktestTestsUnknown || v.ktestTests.shellWords == ["none".toList]

theorem TestrunnerVars.checkTaint_eq_false (v : TestrunnerVars) : v.checkTaint = false := by
  rw [checkTaint, ktestAllowTaint]
  cases v.declaresAllowTaint <;> simp [Text.conditional]

structure LoopEnded (v : TestrunnerVars) (its : List Iteration) (r : TestrunnerRun × UInt8) : Prop where
  last : ∃ it, r.1.performed.getLast? = some it ∧ v.runTests it = r.2
  fails_of_loop : v.ktestLoop = true → r.2 ≠ 0
  once_of_not_loop : v.ktestLoop = false → ∃ it, its.head? = some it ∧ v.runTests it = r.2
  lines : ∀ l ∈ r.1.lines, ∃ n, l = .successfulIterations n

theorem TestrunnerVars.mainLoop_ended {v : TestrunnerVars} {its : List Iteration} :
    ∀ {iterations : ℕ} {r : TestrunnerRun × UInt8}, v.mainLoop iterations its = some r →
      LoopEnded v its r := by
  induction its with
  | nil =>
    intro iterations r h
    simp [mainLoop] at h
  | cons it its ih =>
    intro iterations r h
    simp only [mainLoop] at h
    split_ifs at h with hret hloop
    · obtain rfl := Option.some.inj h
      exact ⟨⟨it, rfl, rfl⟩, fun _ => hret, fun _ => ⟨it, rfl, rfl⟩, by simp⟩
    · obtain rfl := Option.some.inj h
      exact ⟨⟨it, rfl, rfl⟩, by simp [hloop], fun _ => ⟨it, rfl, rfl⟩, by simp⟩
    · obtain ⟨r', hr, rfl⟩ := Option.map_eq_some_iff.mp h
      have hended := ih hr
      obtain ⟨last, hlast, hstatus⟩ := hended.last
      refine ⟨⟨last, ?_, hstatus⟩, hended.fails_of_loop, ?_, ?_⟩
      · simp [List.getLast?_cons, hlast]
      · intro hno
        exact absurd hno hloop
      · intro l hl
        cases hl with
        | head => exact ⟨_, rfl⟩
        | tail _ hl => exact hended.lines l hl

/-- The last iteration of `run-tests`, if there was one, returned zero. -/
def TestrunnerVars.LastReturnedZero (v : TestrunnerVars) (r : TestrunnerRun) : Prop :=
  ∃ it, r.performed.getLast? = some it ∧ v.runTests it = 0

/-- What the run prints, by what its last iteration returned. -/
structure RunEnded (v : TestrunnerVars) (its : List Iteration) (r : TestrunnerRun) : Prop where
  success : .testSuccess ∈ r.lines ↔ v.LastReturnedZero r
  failed : ¬ v.LastReturnedZero r → .testFailed ∈ r.lines
  zero : v.LastReturnedZero r ↔ v.runsNothing = false ∧ v.ktestLoop = false ∧
    ∃ it, its.head? = some it ∧ v.runTests it = 0

theorem RunnerLine.text_kernelVersion (release : Text) :
    (kernelVersion release).text = 'K' :: ("ernel version: ".toList ++ release) := rfl

theorem RunnerLine.text_successfulIterations (n : ℕ) :
    (successfulIterations n).text = 'S' :: ("UCCESSFUL ITERATIONS ".toList ++ Text.ofInt n) := rfl

theorem RunnerLine.text_eq_testSuccess {l : RunnerLine} (h : l.text = "TEST SUCCESS".toList) :
    l = .testSuccess := by
  have hhead : "TEST SUCCESS".toList = 'T' :: "EST SUCCESS".toList := by decide
  cases l with
  | kernelVersion release =>
    rw [text_kernelVersion, hhead] at h
    exact absurd (List.cons.inj h).1 (by decide)
  | successfulIterations iterations =>
    rw [text_successfulIterations, hhead] at h
    exact absurd (List.cons.inj h).1 (by decide)
  | noTestsFound | noTestsToRun | kernelTainted | testFailed => exact absurd h (by decide)
  | testSuccess => rfl

theorem TestrunnerRun.mem_output_success (r : TestrunnerRun) :
    "TEST SUCCESS".toList ∈ r.output ↔ .testSuccess ∈ r.lines := by
  constructor
  · intro h
    obtain ⟨l, hl, htext⟩ := List.mem_map.mp h
    rwa [← RunnerLine.text_eq_testSuccess htext]
  · exact fun h => List.mem_map.mpr ⟨_, h, rfl⟩

theorem TestrunnerRun.mem_output_failed {r : TestrunnerRun} (h : .testFailed ∈ r.lines) :
    "TEST FAILED".toList ∈ r.output := List.mem_map.mpr ⟨_, h, rfl⟩

theorem TestrunnerVars.testrunner_ended {v : TestrunnerVars} {its : List Iteration} {r : TestrunnerRun}
    (h : v.testrunner its = some r) : RunEnded v its r := by
  rw [testrunner] at h
  split_ifs at h with hempty hnone
  · obtain rfl := Option.some.inj h
    constructor <;> simp [LastReturnedZero, runsNothing, hempty]
  · obtain rfl := Option.some.inj h
    constructor <;> simp [LastReturnedZero, runsNothing, hnone]
  · obtain ⟨⟨r', ret⟩, hr, rfl⟩ := Option.map_eq_some_iff.mp h
    have hended := mainLoop_ended hr
    obtain ⟨last, hlast, hstatus⟩ := hended.last
    have hzero : v.LastReturnedZero
        ⟨r'.performed, .kernelVersion v.release :: r'.lines ++ v.verdict ret⟩ ↔ ret = 0 := by
      simp [LastReturnedZero, hlast, hstatus]
    have hnot : .testSuccess ∉ r'.lines := by
      intro hmem
      obtain ⟨n, hn⟩ := hended.lines _ hmem
      simp at hn
    constructor
    · rw [hzero, verdict, checkTaint_eq_false]
      by_cases hret : ret = 0 <;> simp [hnot, hret]
    · rw [hzero, verdict, checkTaint_eq_false]
      intro hret
      simp [hret]
    · rw [hzero]
      have hruns : v.runsNothing = false := by simp_all [runsNothing]
      rw [hruns]
      cases hloop : v.ktestLoop with
      | true => simpa using hended.fails_of_loop hloop
      | false =>
        obtain ⟨it, hit, hret⟩ := hended.once_of_not_loop hloop
        simp [hit, hret]

/-- The line for the whole run says what the subtests and the taint of the kernel say. -/
def TestrunnerVars.VerdictRight (v : TestrunnerVars) (r : TestrunnerRun) : Prop :=
  ("TEST SUCCESS".toList ∈ r.output ↔
    v.LastReturnedZero r ∧ (v.taint = 0 ∨ v.declaresAllowTaint = true)) ∧
  (v.taint ≠ 0 → v.declaresAllowTaint = false → "TEST FAILED".toList ∈ r.output)

/-- The taint of the kernel never changes the verdict. -/
theorem testrunner_verdictRight_iff (v : TestrunnerVars) (its : List Iteration) (r : TestrunnerRun)
    (h : v.testrunner its = some r) :
    v.VerdictRight r ↔ v.taint = 0 ∨ v.declaresAllowTaint = true ∨ v.runsNothing = true ∨
      v.ktestLoop = true ∨ ∀ it ∈ its.head?, v.runTests it ≠ 0 := by
  have hended := TestrunnerVars.testrunner_ended h
  have hzero : v.LastReturnedZero r ↔ ¬ (v.runsNothing = true ∨ v.ktestLoop = true ∨
      ∀ it ∈ its.head?, v.runTests it ≠ 0) := by
    rw [hended.zero]
    simp
  rw [TestrunnerVars.VerdictRight, r.mem_output_success, hended.success]
  constructor
  · rintro ⟨hsuccess, -⟩
    by_cases hlast : v.LastReturnedZero r
    · rcases (hsuccess.mp hlast).2 with htaint | hallow
      · exact .inl htaint
      · exact .inr (.inl hallow)
    · exact .inr (.inr (not_not.mp (mt hzero.mpr hlast)))
  · intro hwhen
    by_cases hlast : v.LastReturnedZero r
    · have hclean : v.taint = 0 ∨ v.declaresAllowTaint = true := by
        rcases hwhen with htaint | hallow | hnot
        · exact .inl htaint
        · exact .inr hallow
        · exact absurd hnot (hzero.mp hlast)
      refine ⟨by simp [hlast, hclean], fun htaint hallow => ?_⟩
      simp [htaint, hallow] at hclean
    · exact ⟨by simp [hlast], fun _ _ => TestrunnerRun.mem_output_failed (hended.failed hlast)⟩

def warnedVars : TestrunnerVars := ⟨"a".toList, false, false, false, false, 512, "6.17.0".toList⟩

theorem testrunner_success_when_tainted :
    ¬ ∀ (v : TestrunnerVars) (its : List Iteration) (r : TestrunnerRun),
      v.testrunner its = some r → v.VerdictRight r := by
  intro hall
  have hright := hall warnedVars [fun _ => .passed] ⟨[fun _ => .passed],
    [.kernelVersion "6.17.0".toList, .kernelVersion "6.17.0".toList, .testSuccess]⟩ rfl
  have hsuccess := hright.1.mp (by decide)
  exact absurd hsuccess.2 (by decide)

theorem testrunner_verdictRight_declared :
    (({ warnedVars with declaresAllowTaint := true } : TestrunnerVars).testrunner
      [fun _ => .passed]).isSome ∧
    ∀ r, ({ warnedVars with declaresAllowTaint := true } : TestrunnerVars).testrunner
      [fun _ => .passed] = some r →
        ({ warnedVars with declaresAllowTaint := true } : TestrunnerVars).VerdictRight r :=
  ⟨rfl, fun r h => (testrunner_verdictRight_iff _ _ r h).mpr (.inr (.inl rfl))⟩

end KtestCi
