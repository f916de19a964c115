import KtestCi.SupervisorLoop

/-!
# What the supervisor has recorded after a sequence of console lines

The two globals `current_test` and `current_test_log` are tied to the processed lines
by an invariant: for every test that has started, its last start line, the lines up to
the next start of any test, and what its files hold because of them. A log is open
exactly while no other test has started since and no end marker has been seen.
-/

namespace KtestCi.Supervisor

/-- A log made of the given console lines, in order and each once, behind the seconds at
which they were logged. Between them are only the `qemu monitor:` lines that answer them. -/
inductive LogOf : List ConsoleLine → Text → Prop where
  | nil : LogOf [] []
  | line {ls out} (l : ConsoleLine) (log : LogOf ls out) :
      LogOf (ls ++ [l]) (out ++ (elapsed l.loggedAt ++ ' ' :: (l.text ++ ['\n'])))
  | monitor {ls out l reply} (last : ls.getLast? = some l) (answers : reply ∈ l.banner ++ l.replies)
      (log : LogOf ls out) :
      LogOf ls (out ++ (elapsed reply.1 ++ ' ' :: ("qemu monitor: ".toList ++ reply.2 ++ ['\n'])))

theorem LogOf.append {ls ls' : List ConsoleLine} {out out' : Text} (h : LogOf ls out)
    (h' : LogOf ls' out') : LogOf (ls ++ ls') (out ++ out') := by
  induction h' with
  | nil => simpa using h
  | line l _ ih =>
    rw [← List.append_assoc, ← List.append_assoc]
    exact ih.line l
  | monitor last answers _ ih =>
    rw [← List.append_assoc out]
    exact ih.monitor (by simp [last]) answers

theorem State.emit_emit (s : State) (a b : Text) : (s.emit a).emit b = s.emit (a ++ b) := by
  cases h : s.currentTestLog with
  | none => simp [State.emit, h, List.append_assoc]
  | some t =>
    have hfiles : (s.files.append t .log a).append t .log b = s.files.append t .log (a ++ b) := by
      funext t' f'
      by_cases heq : t' = t ∧ f' = TestFile.log
      · simp [Files.append, Files.write, heq, List.append_assoc]
      · simp [Files.append, Files.write, heq]
    simp [State.emit, h, hfiles, List.append_assoc]

/-- The sinks and globals that recording depends on; a step of the monitor or of the
watchdog leaves them alone. -/
def State.SameRecords (s s' : State) : Prop :=
  s'.files = s.files ∧ s'.logfile = s.logfile ∧ s'.currentTest = s.currentTest ∧
    s'.currentTestLog = s.currentTestLog

theorem readWatchdog_sameRecords (s : State) (line : Text) :
    s.SameRecords (readWatchdog s line) := by
  unfold readWatchdog
  split
  · exact ⟨rfl, rfl, rfl, rfl⟩
  · exact ⟨rfl, rfl, rfl, rfl⟩

theorem monitorDrain_eq_emit {l : ConsoleLine} {out : Text} (s₀ : State) (m : Monitor)
    (h : LogOf [l] out) (cmd : Option Text) {rendered : List (ℕ × Text)}
    (hrendered : rendered ⊆ l.banner ++ l.replies) :
    ∃ out', LogOf [l] out' ∧
      monitorDrain { s₀.emit out with monitor := m } cmd rendered =
        { s₀.emit out' with monitor := m } := by
  induction rendered generalizing out with
  | nil => exact ⟨out, h, rfl⟩
  | cons reply rendered ih =>
    have hstep : ∃ out', LogOf [l] out' ∧
        monitorLogLine cmd { s₀.emit out with monitor := m } reply =
          { s₀.emit out' with monitor := m } := by
      unfold monitorLogLine
      simp only
      split_ifs
      · exact ⟨out, h, rfl⟩
      · exact ⟨out, h, rfl⟩
      · refine ⟨_, h.monitor rfl (hrendered List.mem_cons_self), ?_⟩
        rw [← State.emit_emit, ← stamp_eq_elapsed]
        rfl
    obtain ⟨out₁, h₁, he⟩ := hstep
    obtain ⟨out₂, h₂, he'⟩ := ih h₁ fun reply hreply => hrendered (List.mem_cons_of_mem _ hreply)
    refine ⟨out₂, h₂, ?_⟩
    rw [← he']
    exact congrArg (fun s => monitorDrain s cmd rendered) he

theorem readMonitorCmd_logLine (s : State) (l : ConsoleLine) :
    ∃ out m, LogOf [l] out ∧
      readMonitorCmd (logLine s l.loggedAt (strim l.raw)) l (strim l.raw) =
        { s.emit out with monitor := m } := by
  have hline : LogOf [l] (stamped l.loggedAt (strim l.raw)) := by
    rw [stamped, stamp_eq_elapsed]
    exact LogOf.nil.line l
  have hnothing : logLine s l.loggedAt (strim l.raw) =
      { s.emit (stamped l.loggedAt (strim l.raw)) with monitor := s.monitor } := rfl
  unfold readMonitorCmd
  split
  next cmd _ =>
    have hmonitor : (logLine s l.loggedAt (strim l.raw)).monitor = s.monitor := rfl
    unfold monitorSend
    rw [hmonitor, hnothing]
    cases s.monitor with
    | failed => exact ⟨_, _, hline, rfl⟩
    | connected =>
      obtain ⟨out, h, he⟩ := monitorDrain_eq_emit s .connected hline (some cmd)
        (List.subset_append_right l.banner l.replies)
      exact ⟨out, _, h, he⟩
    | unused =>
      simp only
      split_ifs
      · obtain ⟨out, h, he⟩ := monitorDrain_eq_emit s .connected hline none
          (List.subset_append_left l.banner l.replies)
        obtain ⟨out', h', he'⟩ := monitorDrain_eq_emit s .connected h (some cmd)
          (List.subset_append_right l.banner l.replies)
        refine ⟨out', .connected, h', ?_⟩
        rw [← he']
        exact congrArg (fun s => monitorDrain s (some cmd) l.replies) he
      · exact ⟨_, _, hline, rfl⟩
  next => exact ⟨_, _, hline, hnothing⟩

theorem writeTestFile_eq {o : Options} {s : State} (h : o.prepared s.testName = true)
    (f : TestFile) (c : Text) :
    writeTestFile o s f c = some { s with files := s.files.write s.testName f c } := by
  have hfiles : (s.files.write s.testName f []).write s.testName f c =
      s.files.write s.testName f c := by
    funext t' f'
    by_cases heq : t' = s.testName ∧ f' = f <;> simp [Files.write, heq]
  simp only [writeTestFile, testFileOpen, h, if_true, Option.map_some]
  exact congrArg (fun files => some { s with files := files }) hfiles

theorem testEnd_spec {o : Options} {s : State} {t : Text} (ht : s.currentTest = some t)
    (hp : o.prepared t = true) (now : ℕ) :
    ∃ s' duration, testEnd o s now = some s' ∧ s'.files = s.files.write t .duration duration ∧
      s'.logfile = s.logfile ∧ s'.currentTest = some t ∧ s'.currentTestLog = none := by
  have hname : s.testName = t := by simp [State.testName, ht]
  simp only [testEnd, writeTestFile_eq (hname ▸ hp), hname]
  exact ⟨_, _, rfl, rfl, rfl, ht, rfl⟩

/-- Starting a test truncates its log and records the failure it would leave behind. -/
theorem testStart_spec {o : Options} {t : Text} (hp : o.prepared t = true) (s : State) (now : ℕ) :
    ∃ s', testStart o s t now = some s' ∧
      s'.files = (s.files.write t .log []).write t .status "TEST FAILED\n".toList ∧
      s'.logfile = s.logfile ∧ s'.currentTest = some t ∧ s'.currentTestLog = some t := by
  have hopen : testFileOpen o { s with currentTest := some t, currentTestStart := now } .log =
      some { s with
        currentTest := some t, currentTestStart := now, files := s.files.write t .log [] } := by
    simp [testFileOpen, State.testName, hp]
  simp only [testStart, hopen, Option.bind_eq_bind, Option.bind_some]
  rw [writeTestFile_eq (by simpa [State.testName] using hp)]
  exact ⟨_, rfl, rfl, rfl, rfl, rfl⟩

theorem startTests_spec {o : Options} {s : State} {t : Text} (hp : o.prepared t = true)
    (hcur : ∀ t₀, s.currentTestLog = some t₀ → s.currentTest = some t₀ ∧ o.prepared t₀ = true)
    (now : ℕ) :
    ∃ s', startTests o s (some t) now = some s' ∧ s'.logfile = s.logfile ∧
      s'.currentTest = some t ∧ s'.currentTestLog = some t ∧
      s'.files t .log = some [] ∧ s'.files t .status = some "TEST FAILED\n".toList ∧
      (∀ t', t' ≠ t → s'.files t' .log = s.files t' .log ∧ s'.files t' .status = s.files t' .status) ∧
      (∀ t', t' ≠ t → s.currentTest ≠ some t' → s'.files t' = s.files t') := by
  cases hlog : s.currentTestLog with
  | none =>
    obtain ⟨s', he, hf, hl, hc, ho⟩ := testStart_spec hp s now
    refine ⟨s', by simp [startTests, hlog, he], hl, hc, ho, ?_, ?_, ?_, ?_⟩
    · rw [hf, Files.write_of_ne_file _ _ _ (by decide), Files.write_self]
    · rw [hf, Files.write_self]
    · intro t' hne
      rw [hf, Files.write_of_ne_test _ hne, Files.write_of_ne_test _ hne]
      exact ⟨rfl, rfl⟩
    · intro t' hne _
      rw [hf, Files.write_of_ne_test _ hne, Files.write_of_ne_test _ hne]
  | some t₀ =>
    obtain ⟨hc₀, hp₀⟩ := hcur t₀ hlog
    obtain ⟨s₁, d, he₁, hf₁, hl₁, hc₁, ho₁⟩ := testEnd_spec hc₀ hp₀ now
    obtain ⟨s', he, hf, hl, hc, ho⟩ := testStart_spec hp s₁ now
    refine ⟨s', by simp [startTests, hlog, he₁, he], hl.trans hl₁, hc, ho, ?_, ?_, ?_, ?_⟩
    · rw [hf, Files.write_of_ne_file _ _ _ (by decide), Files.write_self]
    · rw [hf, Files.write_self]
    · intro t' hne
      rw [hf, Files.write_of_ne_test _ hne, Files.write_of_ne_test _ hne, hf₁,
        Files.write_of_ne_file _ _ _ (by decide), Files.write_of_ne_file _ _ _ (by decide)]
      exact ⟨rfl, rfl⟩
    · intro t' hne hne₀
      have hne₁ : t' ≠ t₀ := fun h => hne₀ (h ▸ hc₀)
      rw [hf, Files.write_of_ne_test _ hne, Files.write_of_ne_test _ hne, hf₁,
        Files.write_of_ne_test _ hne₁]

theorem State.emit_files_closed {s : State} (h : s.currentTestLog = none) (out : Text) :
    (s.emit out).files = s.files := by
  simp [State.emit, h]

theorem State.emit_files_open {s : State} {t : Text} (h : s.currentTestLog = some t) (out : Text) :
    (s.emit out).files = s.files.append t .log out := by
  simp [State.emit, h]

/-- The effect of an end marker on the records: with an open log it becomes the status
and closes the log, otherwise it is ignored. -/
structure Ends (s : State) (l : ConsoleLine) (s' : State) : Prop where
  logfile : s'.logfile = s.logfile
  currentTest : s'.currentTest = s.currentTest
  closed : s.currentTestLog = none → s'.files = s.files ∧ s'.currentTestLog = none
  log : ∀ t, s.currentTestLog = some t → s'.files t .log = s.files t .log
  status : ∀ t, s.currentTestLog = some t →
    s'.files t .status = if l.ending then some (l.text ++ ['\n']) else s.files t .status
  others : ∀ t t', s.currentTestLog = some t → t' ≠ t → s'.files t' = s.files t'
  currentTestLog : ∀ t, s.currentTestLog = some t →
    s'.currentTestLog = if l.ending then none else some t

theorem endTests_spec {o : Options} {s : State}
    (hcur : ∀ t, s.currentTestLog = some t → s.currentTest = some t ∧ o.prepared t = true)
    (l : ConsoleLine) (now : ℕ) :
    ∃ s', endTests o s (strim l.raw) now = some s' ∧ Ends s l s' := by
  cases hopen : s.currentTestLog with
  | none =>
    refine ⟨s, by simp [endTests, hopen], rfl, rfl, fun _ => ⟨rfl, hopen⟩, ?_, ?_, ?_, ?_⟩
    all_goals simp [hopen]
  | some t =>
    obtain ⟨hc, hp⟩ := hcur t hopen
    have hname : s.testName = t := by simp [State.testName, hc]
    cases hend : l.ending with
    | false =>
      refine ⟨s, by simp [endTests, l.testIsEnding_strim, hend], rfl, rfl, by simp [hopen],
        ?_, ?_, ?_, ?_⟩
      all_goals simp [hend]
    | true =>
      obtain ⟨s', d, he, hf, hl, hct, ho⟩ := testEnd_spec (o := o) (t := t)
        (s := { s with files := s.files.write t .status (l.text ++ ['\n']) }) hc hp now
      have hf' : s'.files = (s.files.write t .status (l.text ++ ['\n'])).write t .duration d := hf
      refine ⟨s', ?_, hl, hct.trans hc.symm, by simp [hopen], ?_, ?_, ?_, ?_⟩
      · simp only [endTests, l.testIsEnding_strim, hopen, hend, Option.isSome_some, Bool.and_self,
          if_true]
        rw [l.strim_raw, writeTestFile_eq (hname ▸ hp), hname]
        exact he
      · intro t₁ _
        rw [hf', Files.write_of_ne_file _ _ _ (by decide), Files.write_of_ne_file _ _ _ (by decide)]
      · intro t₁ ht₁
        obtain rfl : t = t₁ := Option.some.inj (hopen.symm.trans ht₁)
        rw [hf', Files.write_of_ne_file _ _ _ (by decide), Files.write_self, if_pos hend]
      · intro t₁ t' ht₁ hne
        obtain rfl : t = t₁ := Option.some.inj (hopen.symm.trans ht₁)
        rw [hf', Files.write_of_ne_test _ hne, Files.write_of_ne_test _ hne]
      · intro t₁ _
        rw [ho, if_pos hend]

/-- The part of a line's processing that starts with logging it: the line goes to the
full log and to the open log, and then takes effect as an end marker. -/
theorem processLine_spec {o : Options} {s s₁ : State} {l : ConsoleLine}
    (hstart : startTests o (readWatchdog s (strim l.raw)) l.starting l.now = some s₁)
    (hcur : ∀ t, s₁.currentTestLog = some t → s₁.currentTest = some t ∧ o.prepared t = true)
    (hstop : stops o (strim l.raw) = none) :
    ∃ s' out, processLine o s l = .next s' ∧ LogOf [l] out ∧ Ends (s₁.emit out) l s' := by
  obtain ⟨out, m, hout, hlog⟩ := readMonitorCmd_logLine s₁ l
  obtain ⟨s₂, hend, hends⟩ := endTests_spec (s := { s₁.emit out with monitor := m }) hcur l l.now
  have hstart' : startTests o (readWatchdog s (strim l.raw)) (testIsStarting (strim l.raw)) l.now =
      some s₁ := by rw [l.testIsStarting_strim, hstart]
  have hends' : Ends (s₁.emit out) l s₂ :=
    ⟨hends.logfile, hends.currentTest, hends.closed, hends.log, hends.status, hends.others,
      hends.currentTestLog⟩
  have hproc : processLine o s l =
      .next (if o.exitOnFailure && reportsFault (strim l.raw) then { s₂ with alarm := 5 } else s₂) := by
    simp only [processLine, hstart', hlog, hend, hstop]
  refine ⟨_, out, hproc, hout, ?_⟩
  split_ifs
  · exact ⟨hends'.logfile, hends'.currentTest, hends'.closed, hends'.log, hends'.status,
      hends'.others, hends'.currentTestLog⟩
  · exact hends'

/-- `b` is the last line that starts `t`, `seg` the lines from there to the next start
of any test, and `rest` everything after that. -/
structure LastRun (lines : List ConsoleLine) (t : Text) (b : ConsoleLine)
    (seg rest : List ConsoleLine) : Prop where
  split : ∃ pre, lines = pre ++ b :: (seg ++ rest)
  starts : b.starting = some t
  quiet : ∀ l ∈ seg, l.starting = none
  next : ∀ l, rest.head? = some l → l.starting.isSome = true
  last : ∀ l ∈ rest, l.starting ≠ some t

namespace LastRun
variable {lines : List ConsoleLine} {t : Text} {b l : ConsoleLine} {seg rest : List ConsoleLine}

theorem start (lines : List ConsoleLine) (h : l.starting = some t) :
    LastRun (lines ++ [l]) t l [] [] where
  split := ⟨lines, by simp⟩
  starts := h
  quiet := by simp
  next := by simp
  last := by simp

/-- A line that starts no test extends the run while no other test has started. -/
theorem extend (h : LastRun lines t b seg []) (hl : l.starting = none) :
    LastRun (lines ++ [l]) t b (seg ++ [l]) [] where
  split := by
    obtain ⟨pre, rfl⟩ := h.split
    exact ⟨pre, by simp⟩
  starts := h.starts
  quiet := by
    intro l' hl'
    rcases List.mem_append.mp hl' with hl' | hl'
    · exact h.quiet l' hl'
    · rw [List.mem_singleton.mp hl', hl]
  next := by simp
  last := by simp

/-- Any line that does not start `t` is beyond the run once another test has started,
and so is the line that starts the other test. -/
theorem pass (h : LastRun lines t b seg rest) (hl : l.starting ≠ some t)
    (hnext : rest = [] → l.starting.isSome = true) : LastRun (lines ++ [l]) t b seg (rest ++ [l]) where
  split := by
    obtain ⟨pre, rfl⟩ := h.split
    exact ⟨pre, by simp⟩
  starts := h.starts
  quiet := h.quiet
  next := by
    intro l' hl'
    cases rest with
    | nil =>
      obtain rfl : l = l' := by simpa using hl'
      exact hnext rfl
    | cons r rest => exact h.next l' (by simpa using hl')
  last := by
    intro l' hl'
    rcases List.mem_append.mp hl' with hl' | hl'
    · exact h.last l' hl'
    · rw [List.mem_singleton.mp hl']
      exact hl

variable {b' : ConsoleLine} {seg' rest' : List ConsoleLine}

theorem not_mem_of_starting (h : LastRun lines t b seg rest) (hl : l.starting = some t) :
    l ∉ seg ++ rest := by
  intro hmem
  rcases List.mem_append.mp hmem with hseg | hrest
  · simp [h.quiet l hseg] at hl
  · exact h.last l hrest hl

theorem lines_after_eq (h : LastRun lines t b seg rest) (h' : LastRun lines t b' seg' rest') :
    seg ++ rest = seg' ++ rest' := by
  obtain ⟨pre, hpre⟩ := h.split
  obtain ⟨pre', hpre'⟩ := h'.split
  rcases List.append_eq_append_iff.mp (hpre.symm.trans hpre') with ⟨c, -, hb⟩ | ⟨c, -, hb⟩
  · cases c with
    | nil => exact (List.cons.inj hb).2
    | cons a c =>
      refine absurd ?_ (h.not_mem_of_starting h'.starts)
      simp [(List.cons.inj hb).2]
  · cases c with
    | nil => exact (List.cons.inj hb).2.symm
    | cons a c =>
      refine absurd ?_ (h'.not_mem_of_starting h.starts)
      simp [(List.cons.inj hb).2]

theorem seg_eq_of_append (h : LastRun lines t b seg rest) (h' : LastRun lines t b' seg' rest')
    {d : List ConsoleLine} (hseg : seg' = seg ++ d) (hrest : rest = d ++ rest') : seg = seg' := by
  cases d with
  | nil => simpa using hseg.symm
  | cons a d =>
    have hstarts := h.next a (by simp [hrest])
    simp [h'.quiet a (by simp [hseg])] at hstarts

theorem seg_unique (h : LastRun lines t b seg rest) (h' : LastRun lines t b' seg' rest') :
    seg = seg' := by
  rcases List.append_eq_append_iff.mp (h.lines_after_eq h') with ⟨d, hd, hr⟩ | ⟨d, hd, hr⟩
  · exact h.seg_eq_of_append h' hd hr
  · exact (h'.seg_eq_of_append h hd hr).symm

end LastRun

/-- The status left by a run: its first end marker, or the failure recorded at the start. -/
def recordedStatus (seg : List ConsoleLine) : Text :=
  match seg.find? ConsoleLine.ending with
  | some e => e.text ++ ['\n']
  | none => "TEST FAILED\n".toList

/-- The lines of a run that its log covers: up to and including the first end marker. -/
def loggedLines (seg : List ConsoleLine) : List ConsoleLine :=
  seg.takeWhile (fun l => !l.ending) ++ (seg.find? ConsoleLine.ending).toList

theorem recorded_of_ended {seg : List ConsoleLine} (h : ∃ e ∈ seg, e.ending = true)
    (l : ConsoleLine) : recordedStatus (seg ++ [l]) = recordedStatus seg ∧
      loggedLines (seg ++ [l]) = loggedLines seg := by
  have hfind : (seg ++ [l]).find? ConsoleLine.ending = seg.find? ConsoleLine.ending := by
    obtain ⟨e, he⟩ := Option.isSome_iff_exists.mp (List.find?_isSome.mpr h)
    simp [List.find?_append, he]
  have htake : (seg ++ [l]).takeWhile (fun l => !l.ending) = seg.takeWhile (fun l => !l.ending) := by
    rw [List.takeWhile_append, if_neg]
    intro hlen
    obtain ⟨e, hm, hend⟩ := h
    rw [← (List.takeWhile_prefix _).eq_of_length hlen] at hm
    simpa [hend] using List.mem_takeWhile_imp hm
  constructor
  · unfold recordedStatus
    rw [hfind]
  · unfold loggedLines
    rw [hfind, htake]

theorem recorded_of_open {seg : List ConsoleLine} (h : ∀ l ∈ seg, l.ending = false)
    (l : ConsoleLine) :
    recordedStatus (seg ++ [l]) =
        (if l.ending then l.text ++ ['\n'] else recordedStatus seg) ∧
      loggedLines (seg ++ [l]) = loggedLines seg ++ [l] := by
  have hfind : seg.find? ConsoleLine.ending = none := List.find?_eq_none.mpr (by simpa using h)
  have htake : seg.takeWhile (fun l => !l.ending) = seg :=
    List.takeWhile_eq_self_iff.mpr (by simpa using h)
  cases hl : l.ending with
  | false =>
    have hfind' : (seg ++ [l]).find? ConsoleLine.ending = none := by
      simp [List.find?_append, hfind, hl]
    constructor
    · unfold recordedStatus
      simp [hfind, hfind']
    · unfold loggedLines
      rw [List.takeWhile_append_of_pos (by simpa using h)]
      simp [hfind, hfind', htake, hl]
  | true =>
    have hfind' : (seg ++ [l]).find? ConsoleLine.ending = some l := by
      simp [List.find?_append, hfind, hl]
    constructor
    · unfold recordedStatus
      simp [hfind']
    · unfold loggedLines
      rw [List.takeWhile_append_of_pos (by simpa using h)]
      simp [hfind, hfind', htake, hl]

/-- The files of `t` hold what its run left. -/
def HoldsRun (s : State) (t : Text) (b : ConsoleLine) (seg : List ConsoleLine) : Prop :=
  s.files t .status = some (recordedStatus seg) ∧
    ∃ log, s.files t .log = some log ∧ LogOf (b :: loggedLines seg) log

/-- What the state records about the lines processed so far. -/
structure Records (files : Files) (lines : List ConsoleLine) (s : State) : Prop where
  full : LogOf lines s.logfile
  untouched : ∀ t, (∀ l ∈ lines, l.starting ≠ some t) → s.files t = files t
  current : ∀ t, s.currentTestLog = some t → s.currentTest = some t
  started : ∀ t, s.currentTest = some t → ∃ l ∈ lines, l.starting = some t
  runs : ∀ t, (∃ l ∈ lines, l.starting = some t) → ∃ b seg rest, LastRun lines t b seg rest ∧
    HoldsRun s t b seg ∧
    (s.currentTestLog = some t ↔ rest = [] ∧ ∀ l ∈ seg, l.ending = false)

theorem records_initial (o : Options) (files : Files) : Records files [] (initial o files) where
  full := .nil
  untouched := fun _ _ => rfl
  current := by simp [initial]
  started := by simp [initial]
  runs := by simp

variable {o : Options} {files : Files} {lines : List ConsoleLine} {s : State} {l : ConsoleLine}

theorem Records.congr {s' : State} (h : Records files lines s) (hs : s.SameRecords s') :
    Records files lines s' := by
  obtain ⟨hf, hl, hc, ho⟩ := hs
  refine ⟨hl ▸ h.full, hf ▸ h.untouched, by rw [hc, ho]; exact h.current, hc ▸ h.started, ?_⟩
  intro t ht
  obtain ⟨b, seg, rest, hrun, hholds, hopen⟩ := h.runs t ht
  exact ⟨b, seg, rest, hrun, by rw [HoldsRun, hf]; exact hholds, by rw [ho]; exact hopen⟩

theorem Ends.frame {out : Text} {s' : State} (h : Ends (s.emit out) l s') {t : Text}
    (ht : s.currentTestLog ≠ some t) : s'.files t = s.files t := by
  cases hopen : s.currentTestLog with
  | none =>
    rw [(h.closed hopen).1, State.emit_files_closed hopen]
  | some t₀ =>
    have hne : t ≠ t₀ := fun heq => ht (heq ▸ hopen)
    rw [h.others t₀ t hopen hne, State.emit_files_open hopen, Files.append,
      Files.write_of_ne_test _ hne]

theorem Ends.open_of_open {out : Text} {s' : State} (h : Ends (s.emit out) l s') {t : Text}
    (ht : s'.currentTestLog = some t) : s.currentTestLog = some t := by
  cases hopen : s.currentTestLog with
  | none => simp [(h.closed hopen).2] at ht
  | some t₀ =>
    rw [h.currentTestLog t₀ hopen] at ht
    split_ifs at ht
    exact ht

theorem HoldsRun.extend {t : Text} {b : ConsoleLine} {seg : List ConsoleLine} {out : Text}
    {s' : State} (h : HoldsRun s t b seg) (hseg : ∀ l ∈ seg, l.ending = false)
    (hopen : s.currentTestLog = some t) (hout : LogOf [l] out)
    (hends : Ends (s.emit out) l s') : HoldsRun s' t b (seg ++ [l]) := by
  obtain ⟨hstatus, log, hlog, hlogof⟩ := h
  obtain ⟨hrec, hlogged⟩ := recorded_of_open hseg l
  refine ⟨?_, log ++ out, ?_, ?_⟩
  · have hkeep : (s.emit out).files t .status = s.files t .status := by
      rw [State.emit_files_open hopen, Files.append, Files.write_of_ne_file _ _ _ (by decide)]
    rw [hends.status t hopen, hrec, hkeep, hstatus]
    split_ifs <;> rfl
  · rw [hends.log t hopen, State.emit_files_open hopen, Files.append, Files.write_self, hlog]
    rfl
  · rw [hlogged, ← List.cons_append]
    exact hlogof.append hout

theorem Records.step_line (h : Records files lines s)
    (hprep : ∀ t, (∃ l ∈ lines, l.starting = some t) → o.prepared t = true)
    (hl : l.starting = none) (hstop : stops o (strim l.raw) = none) :
    ∃ s', processLine o s l = .next s' ∧ Records files (lines ++ [l]) s' := by
  have hw : Records files lines (readWatchdog s (strim l.raw)) :=
    h.congr (readWatchdog_sameRecords s _)
  obtain ⟨s', out, hproc, hout, hends⟩ :=
    processLine_spec (s := s) (l := l) (by rw [hl]; rfl)
      (fun t ht => ⟨hw.current t ht, hprep t (hw.started t (hw.current t ht))⟩) hstop
  have hmem : ∀ t, (∃ l' ∈ lines ++ [l], l'.starting = some t) → ∃ l' ∈ lines, l'.starting = some t := by
    rintro t ⟨l', hl', ht⟩
    rcases List.mem_append.mp hl' with hl' | hl'
    · exact ⟨l', hl', ht⟩
    · rw [List.mem_singleton.mp hl', hl] at ht
      cases ht
  refine ⟨s', hproc, ?_, ?_, ?_, ?_, ?_⟩
  · rw [hends.logfile]
    exact hw.full.append hout
  · intro t ht
    have ht' : ∀ l' ∈ lines, l'.starting ≠ some t := fun l' hl' =>
      ht l' (List.mem_append_left _ hl')
    rw [← hw.untouched t ht']
    apply hends.frame
    intro hopen
    obtain ⟨l', hl', hs⟩ := hw.started t (hw.current t hopen)
    exact ht' l' hl' hs
  · intro t ht
    rw [hends.currentTest]
    exact hw.current t (hends.open_of_open ht)
  · intro t ht
    rw [hends.currentTest] at ht
    obtain ⟨l', hl', hs⟩ := hw.started t ht
    exact ⟨l', List.mem_append_left _ hl', hs⟩
  · intro t ht
    obtain ⟨b, seg, rest, hrun, hholds, hiff⟩ := hw.runs t (hmem t ht)
    by_cases hopen : (readWatchdog s (strim l.raw)).currentTestLog = some t
    · obtain ⟨rfl, hseg⟩ := hiff.mp hopen
      refine ⟨b, seg ++ [l], [], hrun.extend hl, hholds.extend hseg hopen hout hends, ?_⟩
      rw [hends.currentTestLog t hopen]
      cases hending : l.ending with
      | false => simpa [hending, or_imp, forall_and] using hseg
      | true => simp [hending]
    · have hfiles := hends.frame hopen
      have hholds' : HoldsRun s' t b seg := by
        rw [HoldsRun, hfiles]
        exact hholds
      have hclosed : s'.currentTestLog ≠ some t := fun h => hopen (hends.open_of_open h)
      by_cases hrest : rest = []
      · subst hrest
        have hended : ∃ e ∈ seg, e.ending = true := by
          by_contra hno
          exact hopen (hiff.mpr ⟨rfl, fun l hl => by simpa using fun he => hno ⟨l, hl, he⟩⟩)
        obtain ⟨hrec, hlogged⟩ := recorded_of_ended hended l
        refine ⟨b, seg ++ [l], [], hrun.extend hl, ?_, ?_⟩
        · rw [HoldsRun, hrec, hlogged]
          exact hholds'
        · obtain ⟨e, he, hend⟩ := hended
          refine ⟨fun h => absurd h hclosed, fun h => ?_⟩
          have := h.2 e (List.mem_append_left _ he)
          simp [hend] at this
      · refine ⟨b, seg, rest ++ [l], hrun.pass (by simp [hl]) (fun h => absurd h hrest), hholds', ?_⟩
        simp [hclosed]

theorem Records.step_start {t₁ : Text} (h : Records files lines s)
    (hprep : ∀ t, (∃ l ∈ lines, l.starting = some t) → o.prepared t = true)
    (hl : l.starting = some t₁) (hprep₁ : o.prepared t₁ = true)
    (hstop : stops o (strim l.raw) = none) :
    ∃ s', processLine o s l = .next s' ∧ Records files (lines ++ [l]) s' := by
  have hw : Records files lines (readWatchdog s (strim l.raw)) :=
    h.congr (readWatchdog_sameRecords s _)
  obtain ⟨s₁, hstart, hlf, hct, hcl, hlog, hstatus, hkeep, hkeepAll⟩ :=
    startTests_spec (s := readWatchdog s (strim l.raw)) hprep₁
      (fun t ht => ⟨hw.current t ht, hprep t (hw.started t (hw.current t ht))⟩) l.now
  obtain ⟨s', out, hproc, hout, hends⟩ := processLine_spec (s := s) (l := l) (hl ▸ hstart)
    (fun t ht => by
      obtain rfl : t₁ = t := Option.some.inj (hcl.symm.trans ht)
      exact ⟨hct, hprep₁⟩) hstop
  have hquiet : l.ending = false := l.ending_eq_false_of_starting hl
  have hopen' : s'.currentTestLog = some t₁ := by
    rw [hends.currentTestLog t₁ hcl, hquiet]
    rfl
  have hframe : ∀ t, t ≠ t₁ → s'.files t = s₁.files t := fun t hne =>
    hends.frame (fun h => hne (Option.some.inj (h.symm.trans hcl)))
  refine ⟨s', hproc, ?_, ?_, ?_, ?_, ?_⟩
  · rw [hends.logfile]
    change LogOf _ (s₁.logfile ++ out)
    rw [hlf]
    exact hw.full.append hout
  · intro t ht
    have hne : t ≠ t₁ := fun h => ht l (by simp) (h ▸ hl)
    have ht' : ∀ l' ∈ lines, l'.starting ≠ some t := fun l' hl' =>
      ht l' (List.mem_append_left _ hl')
    rw [hframe t hne, ← hw.untouched t ht']
    apply hkeepAll t hne
    intro hc
    obtain ⟨l', hl', hs⟩ := hw.started t hc
    exact ht' l' hl' hs
  · intro t ht
    rw [hopen'] at ht
    rw [hends.currentTest, ← ht]
    exact hct
  · intro t ht
    rw [hends.currentTest] at ht
    exact ⟨l, by simp, hl.trans (hct.symm.trans ht)⟩
  · intro t ht
    by_cases heq : t = t₁
    · subst heq
      refine ⟨l, [], [], LastRun.start lines hl, ⟨?_, out, ?_, ?_⟩, by simp [hopen']⟩
      · have hkept : (s₁.emit out).files t .status = s₁.files t .status := by
          rw [State.emit_files_open hcl, Files.append, Files.write_of_ne_file _ _ _ (by decide)]
        rw [hends.status t hcl, hquiet, hkept, hstatus]
        rfl
      · rw [hends.log t hcl, State.emit_files_open hcl, Files.append, Files.write_self, hlog]
        rfl
      · exact hout
    · have ht' : ∃ l' ∈ lines, l'.starting = some t := by
        obtain ⟨l', hl', hs⟩ := ht
        rcases List.mem_append.mp hl' with hl' | hl'
        · exact ⟨l', hl', hs⟩
        · rw [List.mem_singleton.mp hl', hl] at hs
          exact absurd (Option.some.inj hs).symm heq
      obtain ⟨b, seg, rest, hrun, hholds, -⟩ := hw.runs t ht'
      refine ⟨b, seg, rest ++ [l], hrun.pass (by simpa [hl] using Ne.symm heq) (by simp [hl]), ?_, ?_⟩
      · rw [HoldsRun, hframe t heq, (hkeep t heq).1, (hkeep t heq).2]
        exact hholds
      · simp [hopen', Ne.symm heq]

/-- The records after any number of lines, none of which ends the loop. -/
theorem runLines_records (o : Options) (files : Files) (lines : List ConsoleLine)
    (hprep : ∀ l ∈ lines, ∀ t, l.starting = some t → o.prepared t = true)
    (hstop : ∀ l ∈ lines, stops o (strim l.raw) = none) :
    ∃ s, runLines o (initial o files) lines = .next s ∧ Records files lines s := by
  induction lines using List.reverseRecOn with
  | nil => exact ⟨_, rfl, records_initial o files⟩
  | append_singleton lines l ih =>
    obtain ⟨s, hrun, hrec⟩ := ih (fun l' hl' => hprep l' (List.mem_append_left _ hl'))
      (fun l' hl' => hstop l' (List.mem_append_left _ hl'))
    have hprep' : ∀ t, (∃ l ∈ lines, l.starting = some t) → o.prepared t = true := by
      rintro t ⟨l', hl', ht⟩
      exact hprep l' (List.mem_append_left _ hl') t ht
    have hstop' := hstop l (by simp)
    rw [runLines_concat, hrun]
    cases hl : l.starting with
    | none => exact hrec.step_line hprep' hl hstop'
    | some t => exact hrec.step_start hprep' hl (hprep l (by simp) t hl) hstop'

/-- After the lines have been processed, the full log has every line; a test with a start
line has the status and the log of its last run; other tests keep their files. -/
def Recorded (o : Options) (files : Files) (lines : List ConsoleLine) : Prop :=
  ∃ s, runLines o (initial o files) lines = .next s ∧ LogOf lines s.logfile ∧
    (∀ t, (∀ l ∈ lines, l.starting ≠ some t) → s.files t = files t) ∧
    ∀ t, (∃ l ∈ lines, l.starting = some t) → ∃ b seg rest, LastRun lines t b seg rest ∧
      s.files t .status = some (recordedStatus seg) ∧
      ∃ log, s.files t .log = some log ∧ LogOf (b :: loggedLines seg) log

theorem supervisor_recording (o : Options) (files : Files) (lines : List ConsoleLine)
    (hprep : ∀ l ∈ lines, ∀ t, l.starting = some t → o.prepared t = true)
    (hstop : ∀ l ∈ lines, stops o (strim l.raw) = none) : Recorded o files lines := by
  obtain ⟨s, hrun, hrec⟩ := runLines_records o files lines hprep hstop
  refine ⟨s, hrun, hrec.full, hrec.untouched, ?_⟩
  intro t ht
  obtain ⟨b, seg, rest, hlast, ⟨hstatus, hlog⟩, -⟩ := hrec.runs t ht
  exact ⟨b, seg, rest, hlast, hstatus, hlog⟩

/-- A test that is started twice, with an end marker after the second start only. -/
theorem supervisor_recording_restarted :
    Recorded ⟨true, true, 1200, fun t => t = "quota".toList⟩ (fun _ _ => none)
      [⟨"========= TEST   quota\n".toList, 1, 1, false, [], []⟩,
       ⟨"========= TEST   quota\r\n".toList, 5, 5, false, [], []⟩,
       ⟨"========= PASSED quota in 3s\n".toList, 8, 8, false, [], []⟩] :=
  supervisor_recording _ _ _ (by decide +kernel) (by decide +kernel)

end KtestCi.Supervisor
