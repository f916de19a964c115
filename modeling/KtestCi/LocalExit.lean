import KtestCi.LocalRun
import KtestCi.Testrunner

/-!
# The exit status of a local run

`run_tests` goes through the selected tests, `testrunner` says in one line how that went, and the
supervisor leaves with this line. Its exit status and the status files of the tests are made of
the same verdicts.
-/

namespace KtestCi
namespace LocalRun

open RunTests Supervisor

def TestRun.failed (r : TestRun) : Bool :=
  match r.ended with
  | some (.failed, _) => true
  | _ => false

/-- The tests that `run_tests` comes to: with `stops` it breaks off after the first one that fails. -/
def performed (stops : Bool) : List TestRun → List TestRun
  | [] => []
  | r :: runs => if stops && r.failed then [r] else r :: performed stops runs

/-- The runs of the selected tests, with their verdicts and the seconds that they take. -/
def testRuns (names : List SubtestName) (it : Iteration) (elapsed : ℕ → ℤ) : List TestRun :=
  names.mapIdx (fun n i => ⟨i, some (it n, elapsed n)⟩)

theorem performed_isPrefix (stops : Bool) (runs : List TestRun) : performed stops runs <+: runs := by
  induction runs with
  | nil => exact List.prefix_rfl
  | cons r runs ih =>
    rw [performed]
    split_ifs
    · exact List.prefix_append [r] runs
    · exact List.cons_prefix_cons.mpr ⟨rfl, ih⟩

theorem performed_eq_self {stops : Bool} {runs : List TestRun}
    (h : ∀ r ∈ performed stops runs, r.failed = false) : performed stops runs = runs := by
  induction runs with
  | nil => rfl
  | cons r runs ih =>
    rw [performed] at h ⊢
    split_ifs with hstop
    · rw [if_pos hstop] at h
      rw [h r (by simp), Bool.and_false] at hstop
      cases hstop
    · rw [if_neg hstop, List.forall_mem_cons] at h
      rw [ih h.2]

theorem length_failedTests_performed (stops : Bool) (runs : List (SubtestName × Verdict × ℤ)) :
    (failedTests stops (runs.map (fun r => (r.1.text, r.2.1)))).length =
      (performed stops (runs.map (fun r => ⟨r.1, some r.2⟩))).countP TestRun.failed := by
  induction runs with
  | nil => rfl
  | cons r runs ih =>
    obtain ⟨i, v, elapsed⟩ := r
    rw [List.map_cons, List.map_cons]
    cases v with
    | failed =>
      cases stops with
      | true => rfl
      | false =>
        simp only [failedTests, performed, Bool.false_and, Bool.false_eq_true, if_false, List.length_cons, ih]
        exact (List.countP_cons_of_pos rfl).symm
    | passed | notrun reason =>
      simp only [failedTests, performed, TestRun.failed, Bool.and_false, Bool.false_eq_true, if_false, ih]
      exact (List.countP_cons_of_neg (by simp [TestRun.failed])).symm

/-- The exit status of a pass over the tests. -/
theorem runTests_eq (v : TestrunnerVars) (it : Iteration) (elapsed : ℕ → ℤ) {names : List SubtestName}
    (hnames : names.map SubtestName.text = Text.shellWords v.ktestTests) :
    v.runTests it = UInt8.ofNat ((performed (v.ktestFailfast || names.length == 1)
      (testRuns names it elapsed)).countP TestRun.failed) := by
  let timed : List (SubtestName × Verdict × ℤ) := names.mapIdx (fun n i => (i, it n, elapsed n))
  have htexts : (Text.shellWords v.ktestTests).mapIdx (fun n i => (i, it n)) =
      timed.map (fun r => (r.1.text, r.2.1)) := by
    rw [← hnames]
    exact List.ext_getElem (by simp [timed]) (by simp [timed])
  have hruns : testRuns names it elapsed = timed.map (fun r => ⟨r.1, some r.2⟩) :=
    List.ext_getElem (by simp [testRuns, timed]) (by simp [testRuns, timed])
  rw [TestrunnerVars.runTests, exitStatus, htexts, length_failedTests_performed, ← hruns, ← hnames,
    List.length_map]

/-- What is known of a run of one of the selected tests. -/
structure RunOf (names : List SubtestName) (it : Iteration) (r : TestRun) : Prop where
  name_mem : r.name ∈ names
  status : r.status = .failed ↔ r.failed = true

theorem runOf_of_mem {names : List SubtestName} {it : Iteration} {elapsed : ℕ → ℤ} {r : TestRun}
    (h : r ∈ testRuns names it elapsed) : RunOf names it r := by
  obtain ⟨n, hn, rfl⟩ := List.mem_mapIdx.mp h
  refine ⟨List.getElem_mem hn, ?_⟩
  simp only [TestRun.status, TestRun.failed]
  cases it n <;> simp [Verdict.status]

theorem map_name_testRuns (names : List SubtestName) (it : Iteration) (elapsed : ℕ → ℤ) :
    (testRuns names it elapsed).map TestRun.name = names :=
  List.ext_getElem (by simp [testRuns]) (by simp [testRuns])

theorem lastRun_of_nodup {runs : List TestRun} (h : (runs.map TestRun.dir).Nodup) {r : TestRun}
    (hr : r ∈ runs) : lastRun runs r.dir = some r := by
  induction runs using List.reverseRecOn with
  | nil => cases hr
  | append_singleton runs a ih =>
    rw [List.map_append, List.nodup_append] at h
    rw [lastRun_concat]
    rcases List.mem_append.mp hr with hr | hr
    · rw [if_neg, ih h.1 hr]
      exact fun heq => h.2.2 _ (List.mem_map_of_mem hr) _ (by simp) heq.symm
    · rw [List.mem_singleton.mp hr, if_pos rfl]

/-- The last line that `testrunner` prints, with its line terminators. -/
def FinalMarker (l : ConsoleLine) (run : TestrunnerRun) : Prop :=
  ∃ verdict eol, run.lines.getLast? = some verdict ∧ (∀ c ∈ eol, c = '\n' ∨ c = '\r') ∧
    l.raw = verdict.text ++ eol

def leaveStatus (ret : UInt8) : ℕ := if ret = 0 then 0 else 1

/-- What the supervisor makes of the last line. -/
structure Final (o : Options) (l : ConsoleLine) (ret : ℕ) : Prop where
  starting : l.starting = none
  ending : l.ending = false
  stops : stops o (strim l.raw) = some ret

theorem last_of_testrunner {v : TestrunnerVars} {it : Iteration} {run : TestrunnerRun}
    (honce : v.ktestLoop = false) (hruns : v.runsNothing = false) (hrun : v.testrunner [it] = some run) :
    run.lines.getLast? = some (if v.runTests it = 0 then .testSuccess else .testFailed) := by
  rw [TestrunnerVars.runsNothing, Bool.or_eq_false_iff, beq_eq_false_iff_ne] at hruns
  have hloop : v.mainLoop 0 [it] = some (⟨[it], []⟩, v.runTests it) := by
    simp only [TestrunnerVars.mainLoop, honce, if_true]
    split_ifs <;> rfl
  rw [TestrunnerVars.testrunner, hruns.1, if_neg Bool.false_ne_true, if_neg hruns.2, hloop] at hrun
  obtain rfl := Option.some.inj hrun
  have hverdict : v.verdict (v.runTests it) = [.kernelVersion v.release,
      if v.runTests it = 0 then .testSuccess else .testFailed] := by
    rw [TestrunnerVars.verdict, v.checkTaint_eq_false, if_neg Bool.false_ne_true]
    split_ifs <;> rfl
  simp only [hverdict]
  rfl

theorem final_of_strim {o : Options} {l : ConsoleLine} {ret : ℕ} {t : Text} (htext : strim l.raw = t)
    (hstarting : testIsStarting t = none) (hending : testIsEnding t = false)
    (hstops : Supervisor.stops o t = some ret) : Final o l ret where
  starting := by rw [← l.testIsStarting_strim, htext, hstarting]
  ending := by rw [← l.testIsEnding_strim, htext, hending]
  stops := by rw [htext, hstops]

theorem FinalMarker.final {o : Options} {l : ConsoleLine} {v : TestrunnerVars} {it : Iteration}
    {run : TestrunnerRun} (h : FinalMarker l run) (hsuccess : o.exitOnSuccess = true)
    (hfailure : o.exitOnFailure = true)
    (hverdict : run.lines.getLast? = some (if v.runTests it = 0 then .testSuccess else .testFailed)) :
    Final o l (leaveStatus (v.runTests it)) := by
  obtain ⟨verdict, eol, hlast, heol, hraw⟩ := h
  rw [hlast] at hverdict
  have htext : strim l.raw = strim verdict.text := by rw [hraw, strim_append_eol _ heol]
  rw [Option.some.inj hverdict] at htext
  by_cases hzero : v.runTests it = 0
  · rw [if_pos hzero] at htext
    have hstops : Supervisor.stops o "TEST SUCCESS".toList = some 0 := by
      rw [Supervisor.stops, hsuccess, hfailure]
      decide
    rw [leaveStatus, if_pos hzero]
    exact final_of_strim (htext.trans (by decide)) (by decide) (by decide) hstops
  · rw [if_neg hzero] at htext
    have hstops : Supervisor.stops o "TEST FAILED".toList = some 1 := by
      rw [Supervisor.stops, hsuccess, hfailure]
      decide
    rw [leaveStatus, if_neg hzero]
    exact final_of_strim (htext.trans (by decide)) (by decide) (by decide) hstops

theorem stops_of_leaves {o : Options} {lines : List ConsoleLine} {s s' : State} {ret : ℕ}
    (h : runLines o s lines = .leaves s' ret) : ∃ l ∈ lines, stops o (strim l.raw) = some ret := by
  induction lines generalizing s with
  | nil => cases h
  | cons l lines ih =>
    cases hl : processLine o s l with
    | next s₁ =>
      simp only [runLines, hl] at h
      obtain ⟨l', hl', hstop⟩ := ih h
      exact ⟨l', List.mem_cons_of_mem l hl', hstop⟩
    | leaves s₁ ret₁ =>
      simp only [runLines, hl] at h
      obtain ⟨rfl, rfl⟩ := Supervisor.Outcome.leaves.inj h
      rw [processLine_eq_runOps] at hl
      cases hops : runOps (bodyOps o l) s with
      | none => simp [hops] at hl
      | some s₂ =>
        rw [hops, Option.elim_some, afterBody] at hl
        cases hstop : stops o (strim l.raw) with
        | none => simp [hstop] at hl
        | some ret' =>
          simp only [hstop, Supervisor.Outcome.leaves.injEq] at hl
          exact ⟨l, List.mem_cons_self, by rw [hstop, hl.2]⟩
    | dies => simp [runLines, hl] at h

theorem leaves_of_reached {o : Options} {pre : List ConsoleLine} {l : ConsoleLine} {s s' : State} {ret : ℕ}
    (h : reached (runLines o s (pre ++ [l])) = some s') (hpre : ∀ l ∈ pre, stops o (strim l.raw) = none)
    (hl : stops o (strim l.raw) = some ret) : runLines o s (pre ++ [l]) = .leaves s' ret := by
  cases hrun : runLines o s (pre ++ [l]) with
  | next s₁ =>
    have hnone := (prepared_of_runLines hrun l (by simp)).2
    rw [hl] at hnone
    cases hnone
  | leaves s₁ ret₁ =>
    rw [hrun] at h
    obtain rfl := Option.some.inj h
    obtain ⟨l', hl', hstop⟩ := stops_of_leaves hrun
    rcases List.mem_append.mp hl' with hl' | hl'
    · rw [hpre l' hl'] at hstop
      cases hstop
    · rw [List.mem_singleton.mp hl', hl] at hstop
      rw [Option.some.inj hstop]
  | dies =>
    rw [hrun] at h
    cases h

/-- The exit status says what the status files say. The number of failed tests is counted in one
byte on its way. -/
structure Exits (d : OutDir) (tests : List Text) (runs : List TestRun) (files : Files) (ret : ℕ) :
    Prop where
  reported : Reported d tests runs files
  zero_iff : ret = 0 ↔ 256 ∣ runs.countP TestRun.failed
  le_one : ret ≤ 1
  statuses : (runs.map TestRun.dir).Nodup → (∀ r ∈ runs, r.Unambiguous) →
    runs.countP TestRun.failed < 256 →
    (ret = 0 ↔ ∀ t ∈ tests, ∀ status, files (resultDir t) .status = some status →
      TestStatus.fromStr status ≠ .failed)

theorem leaveStatus_eq_zero_iff {n : ℕ} : leaveStatus (UInt8.ofNat n) = 0 ↔ 256 ∣ n := by
  have hzero : UInt8.ofNat n = 0 ↔ 256 ∣ n := by
    rw [← UInt8.toNat_inj, UInt8.toNat_ofNat', Nat.dvd_iff_mod_eq_zero]
    rfl
  rw [leaveStatus, ← hzero]
  split_ifs with h <;> simp [h]

theorem Reported.fails {d : OutDir} {names : List SubtestName} {it : Iteration} {runs : List TestRun}
    {files : Files} (h : Reported d (names.map SubtestName.text) runs files)
    (hruns : ∀ r ∈ runs, RunOf names it r) (hnodup : (runs.map TestRun.dir).Nodup)
    (hclear : ∀ r ∈ runs, r.Unambiguous) {r : TestRun} (hr : r ∈ runs) :
    ∃ status, files r.dir .status = some status ∧
      (TestStatus.fromStr status = .failed ↔ r.failed = true) := by
  have hmem : r.name.text ∈ names.map SubtestName.text := List.mem_map_of_mem (hruns r hr).name_mem
  obtain ⟨hfile, hstatus⟩ := h.started _ hmem r (lastRun_of_nodup hnodup hr)
  exact ⟨_, hfile, by rw [hstatus (hclear r hr), (hruns r hr).status]⟩

theorem Reported.zero_iff {d : OutDir} {names : List SubtestName} {it : Iteration} {elapsed : ℕ → ℤ}
    {stops : Bool} {files : Files}
    (h : Reported d (names.map SubtestName.text) (performed stops (testRuns names it elapsed)) files)
    (hnodup : ((performed stops (testRuns names it elapsed)).map TestRun.dir).Nodup)
    (hclear : ∀ r ∈ performed stops (testRuns names it elapsed), r.Unambiguous) :
    (performed stops (testRuns names it elapsed)).countP TestRun.failed = 0 ↔
      ∀ t ∈ names.map SubtestName.text, ∀ status, files (resultDir t) .status = some status →
        TestStatus.fromStr status ≠ .failed := by
  have hruns : ∀ r ∈ performed stops (testRuns names it elapsed), RunOf names it r :=
    fun r hr => runOf_of_mem ((performed_isPrefix stops _).subset hr)
  constructor
  · intro hzero t ht status hstatus
    have hpassed : ∀ r ∈ performed stops (testRuns names it elapsed), r.failed = false := by
      simpa [List.countP_eq_zero] using hzero
    -- nothing was broken off, so that the test has a run
    obtain ⟨i, hi, rfl⟩ := List.mem_map.mp ht
    rw [← map_name_testRuns names it elapsed, ← performed_eq_self hpassed] at hi
    obtain ⟨r, hr, rfl⟩ := List.mem_map.mp hi
    obtain ⟨status', hfile, hfails⟩ := h.fails hruns hnodup hclear hr
    rw [show files r.dir .status = _ from hstatus] at hfile
    rw [Option.some.inj hfile, Ne, hfails, hpassed r hr]
    exact Bool.false_ne_true
  · intro hall
    rw [List.countP_eq_zero]
    intro r hr hfailed
    obtain ⟨status, hfile, hfails⟩ := h.fails hruns hnodup hclear hr
    exact hall _ (List.mem_map_of_mem (hruns r hr).name_mem) status hfile (hfails.mpr hfailed)

/-- The exit status of a local run that leaves on success and on failure: it is the one of the
verdicts that the run has left behind, unless 256 tests fail. -/
theorem local_exit_status (o : Options) (d : OutDir) (v : TestrunnerVars) (it : Iteration)
    (elapsed : ℕ → ℤ) (names : List SubtestName) (run : TestrunnerRun) (pre : List ConsoleLine)
    (last : ConsoleLine) (hsuccess : o.exitOnSuccess = true) (hfailure : o.exitOnFailure = true)
    (honce : v.ktestLoop = false) (hruns : v.runsNothing = false)
    (hnames : names.map SubtestName.text = Text.shellWords v.ktestTests)
    (hecho : ∀ t ∈ Text.shellWords v.ktestTests, isEchoOption t = false)
    (hconsole : ConsoleOf (Text.shellWords v.ktestTests)
      (performed (v.ktestFailfast || names.length == 1) (testRuns names it elapsed)) pre)
    (hpre : ∀ l ∈ pre, stops o (strim l.raw) = none)
    (hrun : v.testrunner [it] = some run) (hlast : FinalMarker last run) :
    let prepared := prepareDirs d v.ktestTests
    ∃ s ret, runLines (prepared.options o) (initial (prepared.options o) prepared.files) (pre ++ [last]) =
        .leaves s ret ∧
      Exits d (Text.shellWords v.ktestTests)
        (performed (v.ktestFailfast || names.length == 1) (testRuns names it elapsed)) s.files ret := by
  intro prepared
  have hfinal := hlast.final hsuccess hfailure (last_of_testrunner honce hruns hrun)
  obtain ⟨s, hreached, hreported⟩ := (hconsole.console.prints hfinal.starting hfinal.ending).reported o d
    hecho (by rwa [List.dropLast_concat])
  have hleaves := @leaves_of_reached (prepared.options o) pre last _ _ _ hreached hpre hfinal.stops
  have hzero := congrArg leaveStatus (runTests_eq v it elapsed hnames)
  refine ⟨s, _, hleaves, hreported, ?_, ?_, ?_⟩
  · rw [hzero, leaveStatus_eq_zero_iff]
  · rw [leaveStatus]
    split_ifs <;> omega
  · intro hnodup hclear hfew
    rw [← hnames] at hreported ⊢
    rw [hzero, leaveStatus_eq_zero_iff, ← hreported.zero_iff hnodup hclear]
    constructor
    · exact fun hdvd => Nat.eq_zero_of_dvd_of_lt hdvd hfew
    · exact fun hcount => hcount ▸ Nat.dvd_zero 256

/-- One test passes and one fails; the third is not run under failfast. -/
theorem local_exit_status_failfast :
    let v : TestrunnerVars := ⟨"quota a/b xattr".toList, false, false, true, false, 0, "6.17.0".toList⟩
    let it : Iteration := fun n => if n = 1 then .failed else .passed
    let names : List SubtestName := [quota, ⟨"a/b".toList, by decide, by simp [Char.isWhitespace]⟩, ⟨"xattr".toList, by decide, by simp [Char.isWhitespace]⟩]
    let prepared := prepareDirs ⟨[], fun _ _ => none⟩ v.ktestTests
    let o : Options := ⟨true, true, 1200, fun _ => false⟩
    ∃ s ret, runLines (prepared.options o) (initial (prepared.options o) prepared.files)
        ([⟨"========= TEST   quota\n".toList, 1, 1, false, [], []⟩,
          ⟨"========= PASSED quota in 3s\n".toList, 4, 4, false, [], []⟩,
          ⟨"========= TEST   a/b\r\n".toList, 5, 5, false, [], []⟩,
          ⟨"========= FAILED a/b in 3s\n".toList, 8, 8, false, [], []⟩] ++
         [⟨"TEST FAILED\n".toList, 9, 9, false, [], []⟩]) = .leaves s ret ∧
      Exits ⟨[], fun _ _ => none⟩ (Text.shellWords v.ktestTests)
        (performed (v.ktestFailfast || names.length == 1) (testRuns names it (fun _ => 3))) s.files ret := by
  intro v it names prepared o
  refine local_exit_status o ⟨[], fun _ _ => none⟩ v it (fun _ => 3) names
    ⟨[it], [.kernelVersion "6.17.0".toList, .kernelVersion "6.17.0".toList, .testFailed]⟩ _ _ rfl rfl rfl
    (by decide +kernel) (by decide +kernel) (by decide +kernel) ?_ (by decide +kernel) rfl
    ⟨.testFailed, ['\n'], rfl, by simp, by decide⟩
  have h₀ := @ConsoleOf.nothing (Text.shellWords v.ktestTests)
  have h₁ := h₀.starts ⟨"========= TEST   quota\n".toList, 1, 1, false, [], []⟩ quota (by decide +kernel)
    ⟨quota.noWhitespace, ['\n'], by simp, by decide⟩
  have h₂ := @ConsoleOf.ends _ [] _ quota
    ⟨"========= PASSED quota in 3s\n".toList, 4, 4, false, [], []⟩ .passed 3 h₁
    ⟨['\n'], by simp, by decide +kernel⟩
  have h₃ := h₂.starts ⟨"========= TEST   a/b\r\n".toList, 5, 5, false, [], []⟩
    ⟨"a/b".toList, by decide, by simp [Char.isWhitespace]⟩ (by decide +kernel) ⟨by simp [Char.isWhitespace], ['\r', '\n'], by simp, by decide⟩
  exact h₃.ends ⟨"========= FAILED a/b in 3s\n".toList, 8, 8, false, [], []⟩ .failed 3
    ⟨['\n'], by simp, by decide +kernel⟩

end LocalRun
end KtestCi
