import KtestCi.RequestedTests
import KtestCi.ResultDirNames
import KtestCi.SupervisorOps
import KtestCi.VerdictLines

/-!
# A run on the developer's machine

`parse_test_deps` makes the result directory of every test that is going to run and marks it as
not started; the run is then handed to the supervisor, which dies when a test starts without a
directory. The guest prints a marker when it starts a test and a verdict when the test is over.
-/

namespace KtestCi
namespace LocalRun

open RunTests Supervisor

/-- `$ktest_out/out`: the result directories of the test file, by test, and what is in them. -/
structure OutDir where
  dirs : List Text
  files : Files

/-- A word that `echo` takes for options. -/
def isEchoOption : Text → Bool
  | '-' :: c :: cs => (c :: cs).all (fun c => c == 'n' || c == 'e' || c == 'E')
  | _ => false

def echo (t : Text) : Text := if isEchoOption t then [] else t

def notStarted : Text := "========= NOT STARTED\n".toList

def resultDir (t : Text) : Text := t.replaceChar '/' '.'

/-- One round of the last loop of `parse_test_deps`. -/
def prepareDir (d : OutDir) (t : Text) : OutDir :=
  let t := resultDir (echo t)
  { dirs := t :: d.dirs
    files := if (d.files t .status).isSome then d.files else d.files.write t .status notStarted }

def prepareDirs (d : OutDir) (tests : Text) : OutDir := (Text.shellWords tests).foldl prepareDir d

/-- The options of the supervisor, over these directories. -/
def OutDir.options (d : OutDir) (o : Options) : Options := { o with prepared := fun t => d.dirs.contains t }

/-- A test that has been started, and how it ended and after how long, if it has. -/
structure TestRun where
  name : SubtestName
  ended : Option (Verdict × ℤ)

/-- A line with the verdict on a test, with its line terminators. -/
def EndMarker (l : ConsoleLine) (i : SubtestName) (v : Verdict) (elapsed : ℤ) : Prop :=
  ∃ eol, (∀ c ∈ eol, c = '\n' ∨ c = '\r') ∧ l.raw = verdictLine i.text elapsed v ++ eol

/-- What `run_tests` prints up to some moment: the markers of the tests that it has come to, among
other lines. A guest that comes up again starts over. -/
inductive ConsoleOf (tests : List Text) : List TestRun → List ConsoleLine → Prop where
  | nothing : ConsoleOf tests [] []
  | prints {runs lines} (l : ConsoleLine) (h : ConsoleOf tests runs lines)
    (hstart : l.starting = none) (hend : l.ending = false) : ConsoleOf tests runs (lines ++ [l])
  | starts {runs lines} (l : ConsoleLine) (i : SubtestName) (h : ConsoleOf tests runs lines)
    (hi : i.text ∈ tests) (hmarker : StartMarker l i.text) :
    ConsoleOf tests (runs ++ [⟨i, none⟩]) (lines ++ [l])
  | ends {runs lines i} (l : ConsoleLine) (v : Verdict) (elapsed : ℤ)
    (h : ConsoleOf tests (runs ++ [⟨i, none⟩]) lines) (hmarker : EndMarker l i v elapsed) :
    ConsoleOf tests (runs ++ [⟨i, some (v, elapsed)⟩]) (lines ++ [l])

def TestRun.dir (r : TestRun) : Text := resultDir r.name.text

/-- What the status file of a test says after a run of it. -/
def TestRun.recorded (r : TestRun) : Text :=
  match r.ended with
  | some (v, elapsed) => statusFile (verdictLine r.name.text elapsed v)
  | none => "TEST FAILED\n".toList

def lastRun (runs : List TestRun) (dir : Text) : Option TestRun :=
  (runs.filter (fun r => r.dir == dir)).getLast?

theorem lastRun_concat (runs : List TestRun) (r : TestRun) (dir : Text) :
    lastRun (runs ++ [r]) dir = if r.dir = dir then some r else lastRun runs dir := by
  rw [lastRun, List.filter_append]
  by_cases hdir : r.dir = dir
  · simp [hdir]
  · simp [hdir, lastRun]

theorem prefix_strim {w printed : Text} {c : Char} (hc : c ≠ '\n' ∧ c ≠ '\r') (h : w ++ [c] <+: printed) :
    w ++ [c] <+: strim printed := by
  let p : Char → Bool := fun c => c = '\n' || c = '\r'
  obtain ⟨rest, rfl⟩ := h
  unfold strim
  induction rest using List.reverseRecOn with
  | nil =>
    rw [List.append_nil, List.rdropWhile_concat_neg p _ _ (by simpa [p] using hc)]
  | append_singleton rest a ih =>
    rw [← List.append_assoc]
    by_cases ha : p a = true
    · rw [List.rdropWhile_concat_pos p _ _ ha]
      exact ih
    · rw [List.rdropWhile_concat_neg p _ _ ha, List.append_assoc]
      exact List.prefix_append _ _

theorem strim_append_eol (printed : Text) {eol : Text} (heol : ∀ c ∈ eol, c = '\n' ∨ c = '\r') :
    strim (printed ++ eol) = strim printed := by
  have hdrop : ∀ c ∈ eol.reverse, (decide (c = '\n') || decide (c = '\r')) = true := by
    intro c hc
    simpa using heol c (List.mem_reverse.mp hc)
  rw [strim, strim, List.rdropWhile, List.reverse_append, List.dropWhile_append_of_pos hdrop,
    ← List.rdropWhile]

namespace EndMarker

variable {l : ConsoleLine} {i : SubtestName} {v : Verdict} {elapsed : ℤ}

theorem strim_raw (h : EndMarker l i v elapsed) : strim l.raw = strim (verdictLine i.text elapsed v) := by
  obtain ⟨eol, heol, hraw⟩ := h
  rw [hraw, strim_append_eol _ heol]

theorem recorded (h : EndMarker l i v elapsed) :
    l.text ++ ['\n'] = statusFile (verdictLine i.text elapsed v) := by
  rw [← l.strim_raw, h.strim_raw, statusFile_eq]

theorem ending (h : EndMarker l i v elapsed) : l.ending = true := by
  rw [← l.testIsEnding_strim, h.strim_raw, testIsEnding, Bool.or_eq_true, Bool.or_eq_true,
    strStartsWith_isSome, strStartsWith_isSome, strStartsWith_isSome]
  cases v with
  | passed =>
    refine .inl (.inl (@prefix_strim "========= PASSED".toList _ ' ' (by decide) ?_))
    unfold verdictLine
    simp only [List.append_assoc]
    exact List.prefix_append "========= PASSED ".toList _
  | failed =>
    refine .inl (.inr (@prefix_strim "========= FAILED".toList _ ' ' (by decide) ?_))
    unfold verdictLine
    simp only [List.append_assoc]
    exact List.prefix_append "========= FAILED ".toList _
  | notrun r =>
    refine .inr (@prefix_strim "========= NOTRU".toList _ 'N' (by decide) ?_)
    unfold verdictLine
    simp only [List.append_assoc]
    exact (List.prefix_append "========= NOTRUN".toList [' ']).trans
      (List.prefix_append "========= NOTRUN ".toList _)

theorem starting (h : EndMarker l i v elapsed) : l.starting = none := by
  by_contra hne
  obtain ⟨t, ht⟩ := Option.ne_none_iff_exists'.mp hne
  have hend := h.ending
  rw [l.ending_eq_false_of_starting ht] at hend
  cases hend

end EndMarker

/-- The lines of a run are told from the markers of its console. -/
def Traces (runs : List TestRun) (lines : List ConsoleLine) (r : TestRun) : Prop :=
  ∃ b seg rest, LastRun lines r.dir b seg rest ∧ recordedStatus seg = r.recorded ∧
    (rest = [] ↔ runs.getLast?.map TestRun.dir = some r.dir) ∧
    (r.ended = none → rest = [] → ∀ l ∈ seg, l.ending = false)

/-- What a console says about the runs on it. -/
structure Console (tests : List Text) (runs : List TestRun) (lines : List ConsoleLine) : Prop where
  starts : ∀ l ∈ lines, ∀ t, l.starting = some t → (lastRun runs t).isSome ∧ ∃ n ∈ tests, resultDir n = t
  traces : ∀ t r, lastRun runs t = some r → Traces runs lines r

theorem lastRun_dir {runs : List TestRun} {t : Text} {r : TestRun} (h : lastRun runs t = some r) :
    r.dir = t := by
  have hmem := List.mem_of_getLast? h
  simpa using (List.mem_filter.mp hmem).2

theorem lastRun_replace_isSome {runs : List TestRun} {r r' : TestRun} (hdir : r'.dir = r.dir) (t : Text) :
    (lastRun (runs ++ [r']) t).isSome = (lastRun (runs ++ [r]) t).isSome := by
  rw [lastRun_concat, lastRun_concat, hdir]
  split_ifs <;> rfl

theorem recordedStatus_concat {seg : List ConsoleLine} {l : ConsoleLine} (h : l.ending = false) :
    recordedStatus (seg ++ [l]) = recordedStatus seg := by
  simp [recordedStatus, List.find?_append, h]

section Steps

variable {tests : List Text} {runs : List TestRun} {lines : List ConsoleLine} {l : ConsoleLine}

theorem Traces.later {runs' : List TestRun} {r : TestRun} (h : Traces runs lines r)
    (hother : runs.getLast?.map TestRun.dir ≠ some r.dir ∨ l.starting.isSome = true)
    (hlast : runs'.getLast?.map TestRun.dir ≠ some r.dir) (hl : l.starting ≠ some r.dir) :
    Traces runs' (lines ++ [l]) r := by
  obtain ⟨b, seg, rest, hrun, hstatus, hrest, -⟩ := h
  have hnext : rest = [] → l.starting.isSome = true :=
    fun h => hother.resolve_left (fun hne => hne (hrest.mp h))
  exact ⟨b, seg, rest ++ [l], hrun.pass hl hnext, hstatus, by simpa using hlast, by simp⟩

theorem Console.prints (h : Console tests runs lines) (hstart : l.starting = none)
    (hend : l.ending = false) : Console tests runs (lines ++ [l]) where
  starts := by
    intro l' hl' t ht
    rcases List.mem_append.mp hl' with hl' | hl'
    · exact h.starts l' hl' t ht
    · rw [List.mem_singleton.mp hl', hstart] at ht
      cases ht
  traces := by
    intro t r hr
    by_cases hlast : runs.getLast?.map TestRun.dir = some r.dir
    · obtain ⟨b, seg, rest, hrun, hstatus, hrest, hopen⟩ := h.traces t r hr
      obtain rfl := hrest.mpr hlast
      refine ⟨b, seg ++ [l], [], hrun.extend hstart, ?_, hrest, ?_⟩
      · rw [recordedStatus_concat hend, hstatus]
      · intro hended _ l' hl'
        rcases List.mem_append.mp hl' with hl' | hl'
        · exact hopen hended rfl l' hl'
        · rw [List.mem_singleton.mp hl', hend]
    · exact (h.traces t r hr).later (.inl hlast) hlast (by simp [hstart])

theorem Console.startsTest {i : SubtestName} (h : Console tests runs lines) (hi : i.text ∈ tests)
    (hmarker : StartMarker l i.text) : Console tests (runs ++ [⟨i, none⟩]) (lines ++ [l]) where
  starts := by
    intro l' hl' t ht
    rw [lastRun_concat]
    rcases List.mem_append.mp hl' with hl' | hl'
    · obtain ⟨hsome, hname⟩ := h.starts l' hl' t ht
      refine ⟨?_, hname⟩
      split_ifs
      · rfl
      · exact hsome
    · rw [List.mem_singleton.mp hl', hmarker.starting] at ht
      have hdir : TestRun.dir ⟨i, none⟩ = t := Option.some.inj ht
      exact ⟨by simp [hdir], i.text, hi, hdir⟩
  traces := by
    intro t r hr
    rw [lastRun_concat] at hr
    split_ifs at hr with hdir
    · obtain rfl := Option.some.inj hr
      exact ⟨l, [], [], LastRun.start lines hmarker.starting, rfl, by simp, by simp⟩
    · have hne : TestRun.dir ⟨i, none⟩ ≠ r.dir := by rwa [lastRun_dir hr]
      refine (h.traces t r hr).later (.inr (by simp [hmarker.starting])) (by simpa using hne) ?_
      rw [hmarker.starting]
      exact fun heq => hne (Option.some.inj heq)

theorem Console.endsTest {i : SubtestName} {v : Verdict} {elapsed : ℤ}
    (h : Console tests (runs ++ [⟨i, none⟩]) lines) (hmarker : EndMarker l i v elapsed) :
    Console tests (runs ++ [⟨i, some (v, elapsed)⟩]) (lines ++ [l]) where
  starts := by
    intro l' hl' t ht
    rw [@lastRun_replace_isSome runs ⟨i, none⟩ ⟨i, some (v, elapsed)⟩ rfl]
    rcases List.mem_append.mp hl' with hl' | hl'
    · exact h.starts l' hl' t ht
    · rw [List.mem_singleton.mp hl', hmarker.starting] at ht
      cases ht
  traces := by
    intro t r hr
    rw [lastRun_concat] at hr
    have hsame : TestRun.dir ⟨i, some (v, elapsed)⟩ = TestRun.dir ⟨i, none⟩ := rfl
    split_ifs at hr with hdir
    · -- the run that is open takes the verdict
      obtain rfl := Option.some.inj hr
      obtain ⟨b, seg, rest, hrun, -, hrest, hopen⟩ :=
        h.traces t ⟨i, none⟩ (by rw [lastRun_concat, ← hsame, if_pos hdir])
      obtain rfl := hrest.mpr (by simp)
      refine ⟨b, seg ++ [l], [], hrun.extend hmarker.starting, ?_, by simp, by simp⟩
      rw [(recorded_of_open (hopen rfl rfl) l).1, if_pos hmarker.ending, hmarker.recorded]
      rfl
    · have hne : TestRun.dir ⟨i, none⟩ ≠ r.dir := by rwa [lastRun_dir hr]
      have hr' : lastRun (runs ++ [⟨i, none⟩]) t = some r := by
        rw [lastRun_concat, ← hsame, if_neg hdir]
        exact hr
      exact (h.traces t r hr').later (.inl (by simpa using hne)) (by simpa [hsame] using hne)
        (by simp [hmarker.starting])

theorem ConsoleOf.console (h : ConsoleOf tests runs lines) : Console tests runs lines := by
  induction h with
  | nothing => exact ⟨by simp, by simp [lastRun]⟩
  | prints l _ hstart hend ih => exact ih.prints hstart hend
  | starts l i _ hi hmarker ih => exact ih.startsTest hi hmarker
  | ends l v elapsed _ hmarker ih => exact ih.endsTest hmarker

end Steps

theorem prepareDirs_dirs {tests : List Text} {t : Text} (d : OutDir) :
    t ∈ (tests.foldl prepareDir d).dirs ↔ t ∈ d.dirs ∨ ∃ n ∈ tests, resultDir (echo n) = t := by
  induction tests generalizing d with
  | nil => simp
  | cons n tests ih =>
    rw [List.foldl_cons, ih]
    simp only [prepareDir, List.mem_cons, exists_eq_or_imp]
    tauto

theorem prepareDir_file_of_ne {n : Text} (d : OutDir) {t : Text} {f : TestFile}
    (h : resultDir (echo n) ≠ t ∨ f ≠ .status) : (prepareDir d n).files t f = d.files t f := by
  simp only [prepareDir]
  split_ifs
  · rfl
  · rcases h with h | h
    · rw [Files.write_of_ne_test _ (Ne.symm h)]
    · rw [Files.write_of_ne_file _ _ _ h]

theorem prepareDir_status {n : Text} (d : OutDir) :
    (prepareDir d n).files (resultDir (echo n)) .status =
      some ((d.files (resultDir (echo n)) .status).getD notStarted) := by
  simp only [prepareDir]
  cases h : d.files (resultDir (echo n)) .status with
  | none => simp
  | some status => simp [h]

theorem prepareDirs_status {tests : List Text} {t : Text} (d : OutDir) :
    (tests.foldl prepareDir d).files t .status =
      if ∃ n ∈ tests, resultDir (echo n) = t then some ((d.files t .status).getD notStarted)
      else d.files t .status := by
  induction tests generalizing d with
  | nil => simp
  | cons n tests ih =>
    rw [List.foldl_cons, ih]
    by_cases hn : resultDir (echo n) = t
    · subst hn
      simp [prepareDir_status]
    · simp [prepareDir_file_of_ne d (.inl hn), hn]

theorem prepareDirs_file_of_ne {tests : List Text} {t : Text} {f : TestFile} (d : OutDir)
    (h : (∀ n ∈ tests, resultDir (echo n) ≠ t) ∨ f ≠ .status) :
    (tests.foldl prepareDir d).files t f = d.files t f := by
  induction tests generalizing d with
  | nil => rfl
  | cons n tests ih =>
    rw [List.foldl_cons, ih]
    · refine prepareDir_file_of_ne d (h.imp_left ?_)
      exact fun h => h n List.mem_cons_self
    · exact h.imp_left (fun h n' hn' => h n' (List.mem_cons_of_mem _ hn'))

/-- The state that the supervisor has come to, whether or not it has left the loop. -/
def reached : Supervisor.Outcome → Option State
  | .next s => some s
  | .leaves s _ => some s
  | .dies => none

theorem runLines_records_reached {o : Options} {files : Files} {lines : List ConsoleLine}
    (hprep : ∀ l ∈ lines, l.Prepared o) (hstop : ∀ l ∈ lines.dropLast, stops o (strim l.raw) = none) :
    ∃ s, reached (runLines o (initial o files) lines) = some s ∧ Records files lines s := by
  rcases List.eq_nil_or_concat lines with rfl | ⟨pre, l, rfl⟩
  · exact ⟨_, rfl, records_initial o files⟩
  · rw [List.concat_eq_append] at hprep hstop ⊢
    rw [List.dropLast_concat] at hstop
    have hpre : ∀ l' ∈ pre, l'.Prepared o := fun l' hl' => hprep l' (List.mem_append_left _ hl')
    obtain ⟨s, hrun, hrec⟩ := runLines_records o files pre hpre hstop
    obtain ⟨s', hops, hrec'⟩ := hrec.runOps_bodyOps hpre (hprep l (by simp))
    rw [runLines_concat, hrun]
    change ∃ s, reached (processLine o _ l) = some s ∧ _
    rw [processLine_eq_runOps, hops, Option.elim_some, afterBody]
    cases stops o (strim l.raw) with
    | some ret => exact ⟨s', rfl, hrec'⟩
    | none => exact ⟨_, rfl, hrec'.congr (by split_ifs <;> exact ⟨rfl, rfl, rfl, rfl⟩)⟩

def TestRun.status (r : TestRun) : TestStatus :=
  match r.ended with
  | some (v, _) => v.status
  | none => .failed

/-- The verdict is not told apart by a word in the name of the test or in a reason. -/
def TestRun.Unambiguous (r : TestRun) : Prop :=
  match r.ended with
  | some (v, _) => v.Unambiguous r.name.text
  | none => True

theorem TestRun.fromStr_recorded {r : TestRun} (h : r.Unambiguous) :
    TestStatus.fromStr r.recorded = r.status := by
  obtain ⟨i, ended⟩ := r
  cases ended with
  | none => exact (by decide : TestStatus.fromStr "TEST FAILED\n".toList = .failed)
  | some ended =>
    obtain ⟨v, elapsed⟩ := ended
    cases v with
    | passed => exact fromStr_passed i elapsed
    | failed => exact (fromStr_failed_iff i elapsed).mpr h
    | notrun r => exact (fromStr_notrun_iff i elapsed r).mpr h

/-- The result directories after the runs of some tests: a test that was started has the verdict of
its last run, one that was not keeps what an earlier run has left, and nothing else is written. -/
structure Reported (d : OutDir) (tests : List Text) (runs : List TestRun) (files : Files) : Prop where
  started : ∀ t ∈ tests, ∀ r, lastRun runs (resultDir t) = some r →
    files (resultDir t) .status = some r.recorded ∧
      (r.Unambiguous → TestStatus.fromStr r.recorded = r.status)
  notStarted : ∀ t ∈ tests, lastRun runs (resultDir t) = none →
    files (resultDir t) .status = some ((d.files (resultDir t) .status).getD notStarted) ∧
      ∀ f, f ≠ .status → files (resultDir t) f = d.files (resultDir t) f
  others : ∀ t, (∀ n ∈ tests, resultDir n ≠ t) → files t = d.files t

/-- The supervisor finds every directory that it needs, and leaves the verdicts of the last runs. -/
theorem Console.reported (o : Options) (d : OutDir) {tests : Text} {runs : List TestRun}
    {lines : List ConsoleLine} (htold : Console (Text.shellWords tests) runs lines)
    (hecho : ∀ t ∈ Text.shellWords tests, isEchoOption t = false)
    (hstop : ∀ l ∈ lines.dropLast, stops o (strim l.raw) = none) :
    let prepared := prepareDirs d tests
    ∃ s, reached (runLines (prepared.options o) (initial (prepared.options o) prepared.files) lines) =
        some s ∧ Reported d (Text.shellWords tests) runs s.files := by
  intro prepared
  have hdir : ∀ n ∈ Text.shellWords tests, resultDir (echo n) = resultDir n := by
    intro n hn
    rw [echo, hecho n hn, if_neg Bool.false_ne_true]
  have hprep : ∀ l ∈ lines, l.Prepared (prepared.options o) := by
    intro l hl t ht
    obtain ⟨-, n, hn, hnt⟩ := htold.starts l hl t ht
    have hmem : t ∈ prepared.dirs := (prepareDirs_dirs d).mpr (.inr ⟨n, hn, (hdir n hn).trans hnt⟩)
    simpa [OutDir.options] using hmem
  obtain ⟨s, hrun, hrec⟩ := @runLines_records_reached (prepared.options o) prepared.files lines hprep hstop
  -- a test that no run is of has no start line
  have hquiet : ∀ t, lastRun runs t = none → s.files t = prepared.files t := by
    intro t hnone
    refine hrec.untouched t ?_
    intro l hl ht
    simpa [hnone] using (htold.starts l hl t ht).1
  refine ⟨s, hrun, ?_, ?_, ?_⟩
  · intro t ht r hr
    obtain ⟨b, seg, rest, hlast, hstatus, -⟩ := htold.traces _ r hr
    rw [lastRun_dir hr] at hlast
    have hstarted : ∃ l ∈ lines, l.starting = some (resultDir t) := by
      obtain ⟨front, hsplit⟩ := hlast.split
      exact ⟨b, by simp [hsplit], hlast.starts⟩
    obtain ⟨b', seg', rest', hlast', ⟨hfile, -⟩, -⟩ := hrec.runs _ hstarted
    refine ⟨?_, TestRun.fromStr_recorded⟩
    rw [hfile, hlast'.seg_unique hlast, hstatus]
  · intro t ht hnone
    rw [hquiet _ hnone]
    refine ⟨?_, fun f hf => prepareDirs_file_of_ne d (.inr hf)⟩
    exact (prepareDirs_status d).trans (if_pos ⟨t, ht, hdir t ht⟩)
  · intro t ht
    have hnone : lastRun runs t = none := by
      rw [Option.eq_none_iff_forall_not_mem]
      intro r hr
      obtain ⟨b, seg, rest, hlast, -⟩ := htold.traces _ r hr
      rw [lastRun_dir hr] at hlast
      obtain ⟨front, hsplit⟩ := hlast.split
      obtain ⟨-, n, hn, hnt⟩ := htold.starts b (by simp [hsplit]) t hlast.starts
      exact ht n hn hnt
    rw [hquiet _ hnone]
    funext f
    exact prepareDirs_file_of_ne d (.inl (fun n hn => hdir n hn ▸ ht n hn))

/-- The status files after a local run: what `parse_test_deps` has prepared and the supervisor has
read are the verdicts of the tests that the guest came to. -/
theorem local_run_recorded (o : Options) (d : OutDir) (tests : Text) (runs : List TestRun)
    (lines : List ConsoleLine) (hecho : ∀ t ∈ Text.shellWords tests, isEchoOption t = false)
    (hconsole : ConsoleOf (Text.shellWords tests) runs lines)
    (hstop : ∀ l ∈ lines.dropLast, stops o (strim l.raw) = none) :
    let prepared := prepareDirs d tests
    ∃ s, reached (runLines (prepared.options o) (initial (prepared.options o) prepared.files) lines) =
        some s ∧ Reported d (Text.shellWords tests) runs s.files :=
  hconsole.console.reported o d hecho hstop

def quota : SubtestName := ⟨"quota".toList, by decide, by simp [Char.isWhitespace]⟩

/-- One test passes, the guest goes away during the second, and the third keeps what it had. -/
theorem local_run_recorded_lostGuest :
    let d : OutDir := ⟨[], fun t f => if t = "xattr".toList ∧ f = .status then some "PASSED".toList else none⟩
    let snapshot : SubtestName := ⟨"a/b".toList, by decide, by simp [Char.isWhitespace]⟩
    let prepared := prepareDirs d "quota a/b xattr".toList
    let o : Options := ⟨true, true, 1200, fun _ => false⟩
    ∃ s, reached (runLines (prepared.options o) (initial (prepared.options o) prepared.files)
        [⟨"========= TEST   quota\n".toList, 1, 1, false, [], []⟩,
         ⟨"========= PASSED quota in 3s\n".toList, 4, 4, false, [], []⟩,
         ⟨"========= TEST   a/b\r\n".toList, 5, 5, false, [], []⟩,
         ⟨"Kernel panic\n".toList, 6, 6, false, [], []⟩,
         ⟨"TEST FAILED\n".toList, 11, 11, false, [], []⟩]) = some s ∧
      Reported d (Text.shellWords "quota a/b xattr".toList) [⟨quota, some (.passed, 3)⟩, ⟨snapshot, none⟩] s.files := by
  intro d snapshot prepared o
  refine local_run_recorded o d _ _ _ (by decide +kernel) ?_ (by decide +kernel)
  have h₀ := @ConsoleOf.nothing (Text.shellWords "quota a/b xattr".toList)
  have h₁ := h₀.starts ⟨"========= TEST   quota\n".toList, 1, 1, false, [], []⟩ quota (by decide +kernel)
    ⟨quota.noWhitespace, ['\n'], by simp, by decide⟩
  have h₂ := @ConsoleOf.ends _ [] _ quota
    ⟨"========= PASSED quota in 3s\n".toList, 4, 4, false, [], []⟩ .passed 3 h₁
    ⟨['\n'], by simp, by decide +kernel⟩
  have h₃ := h₂.starts ⟨"========= TEST   a/b\r\n".toList, 5, 5, false, [], []⟩ snapshot (by decide +kernel)
    ⟨snapshot.noWhitespace, ['\r', '\n'], by simp, by decide⟩
  have h₄ := h₃.prints ⟨"Kernel panic\n".toList, 6, 6, false, [], []⟩ (by decide +kernel) (by decide +kernel)
  exact h₄.prints ⟨"TEST FAILED\n".toList, 11, 11, false, [], []⟩ (by decide +kernel) (by decide +kernel)

end LocalRun
end KtestCi
