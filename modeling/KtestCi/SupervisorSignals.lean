import KtestCi.SupervisorOps
import KtestCi.EventRuns

/-!
# The supervisor as a process with signals

From the fork of the child on, the supervisor sets itself up, reads lines and leaves. A signal
can come between any two of its statements, also between the three of `set_timeout`. The
handlers of `SIGTERM` and its like and of `SIGCHLD` exit; the one of `SIGALRM` writes the
timeout marker or sends a signal to the child, and arms the next alarm. Run without a signal,
the statements of the loop body do what `processLine` does.
-/

namespace KtestCi.Supervisor
open EventRuns

/-- The globals that `set_timeout` and `alarm_handler` write, and the alarm. -/
structure Watchdog where
  stage : ℕ
  timeout : ℕ
  alarm : ℕ

def State.watchdog (s : State) : Watchdog := ⟨s.timeoutStage, s.timeout, s.alarm⟩

def State.withWatchdog (s : State) (w : Watchdog) : State :=
  { s with timeoutStage := w.stage, timeout := w.timeout, alarm := w.alarm }

/-- An operation that neither reads nor writes the watchdog. -/
def Operation.Quiet (op : Operation) : Prop :=
  ∀ s w, op (s.withWatchdog w) = (op s).map (fun s' => s'.withWatchdog w)

/-- A statement of the loop body. -/
inductive Action where
  | quiet (op : Operation) (h : op.Quiet)
  | resetStage
  | storeTimeout (newTimeout : ℕ)
  /-- The argument is narrowed to an `unsigned int`. -/
  | alarm (seconds : ℕ)

def Action.op : Action → Operation
  | quiet op _ => op
  | resetStage => fun s => some { s with timeoutStage := 0 }
  | storeTimeout newTimeout => fun s => some { s with timeout := newTimeout }
  | alarm seconds => fun s => some { s with alarm := seconds % 2 ^ 32 }

def setTimeoutActions (newTimeout : ℕ) : List Action :=
  [.resetStage, .storeTimeout newTimeout, .alarm newTimeout]

theorem Operation.Quiet.watchdog_eq {op : Operation} (h : op.Quiet) {s s' : State} (hs : op s = some s') :
    s'.watchdog = s.watchdog := by
  have hself := h s s.watchdog
  have hs₀ : s.withWatchdog s.watchdog = s := rfl
  rw [hs₀, hs, Option.map_some] at hself
  rw [Option.some.inj hself]
  rfl

theorem quiet_some {f : State → State} (h : ∀ s w, f (s.withWatchdog w) = (f s).withWatchdog w) :
    Operation.Quiet (fun s => some (f s)) :=
  fun s w => congrArg some (h s w)

theorem quiet_testFileOpen (o : Options) (f : TestFile) :
    Operation.Quiet (fun s => testFileOpen o s f) := by
  intro s w
  have hname : (s.withWatchdog w).testName = s.testName := rfl
  simp only [testFileOpen, hname]
  cases o.prepared s.testName with
  | false => rfl
  | true => rfl

theorem quiet_fillTestFile (f : TestFile) (content : State → Text)
    (h : ∀ s w, content (s.withWatchdog w) = content s) : (fillTestFile f content).Quiet := by
  intro s w
  have hname : (s.withWatchdog w).testName = s.testName := rfl
  simp only [fillTestFile, h, hname]
  rfl

theorem quiet_openLog (o : Options) (t : Text) : Operation.Quiet (fun s =>
    (testFileOpen o s .log).map (fun s => { s with currentTestLog := some t })) := by
  intro s w
  have hopen := quiet_testFileOpen o .log s w
  simp only at hopen ⊢
  rw [hopen, Option.map_map, Option.map_map]
  rfl

theorem logLine_withWatchdog (now : ℕ) (msg : Text) (s : State) (w : Watchdog) :
    logLine (s.withWatchdog w) now msg = (logLine s now msg).withWatchdog w := rfl

theorem monitorDrain_withWatchdog (cmd : Option Text) (rendered : List (ℕ × Text)) (s : State)
    (w : Watchdog) :
    monitorDrain (s.withWatchdog w) cmd rendered = (monitorDrain s cmd rendered).withWatchdog w := by
  have hline : ∀ s r, monitorLogLine cmd (s.withWatchdog w) r =
      (monitorLogLine cmd s r).withWatchdog w := by
    intro s r
    simp only [monitorLogLine]
    split_ifs <;> rfl
  unfold monitorDrain
  induction rendered generalizing s with
  | nil => rfl
  | cons r rendered ih => rw [List.foldl_cons, List.foldl_cons, hline, ih]

theorem readMonitorCmd_withWatchdog (l : ConsoleLine) (line : Text) (s : State) (w : Watchdog) :
    readMonitorCmd (s.withWatchdog w) l line = (readMonitorCmd s l line).withWatchdog w := by
  unfold readMonitorCmd
  cases strStartsWith line "QEMU_MONITOR ".toList with
  | none => rfl
  | some cmd =>
    have hmonitor : (s.withWatchdog w).monitor = s.monitor := rfl
    simp only [monitorSend, hmonitor]
    cases s.monitor with
    | failed => rfl
    | connected => exact monitorDrain_withWatchdog _ _ s w
    | unused =>
      cases l.connects with
      | false => rfl
      | true =>
        simp only [if_true]
        rw [← monitorDrain_withWatchdog, ← monitorDrain_withWatchdog]
        rfl

def testEndActions (o : Options) (now : ℕ) : List Action :=
  .quiet _ (quiet_testFileOpen o .duration) ::
  .quiet _ (quiet_fillTestFile .duration (fun s => Text.ofInt ((now : ℤ) - s.currentTestStart))
    (fun _ _ => rfl)) ::
  .quiet (fun s => some { s with currentTestLog := none }) (quiet_some (fun _ _ => rfl)) ::
  setTimeoutActions o.defaultTimeout

def testStartActions (o : Options) (newTest : Text) (now : ℕ) : List Action :=
  .quiet (fun s => some { s with currentTest := some newTest, currentTestStart := now })
    (quiet_some (fun _ _ => rfl)) ::
  .quiet _ (quiet_openLog o newTest) ::
  .quiet _ (quiet_testFileOpen o .status) ::
  .quiet _ (quiet_fillTestFile .status (fun _ => "TEST FAILED\n".toList) (fun _ _ => rfl)) ::
  setTimeoutActions o.defaultTimeout

/-- Statements under one condition, which is looked at once. -/
structure Block where
  /-- Skipped unless a test's log is open. -/
  needsLog : Bool
  actions : List Action

def watchdogActions (line : Text) : List Action :=
  match strStartsWith line "WATCHDOG ".toList with
  | some newWatchdog => setTimeoutActions (atol newWatchdog % 2 ^ 64).toNat
  | none => []

def startBlocks (o : Options) (newTest : Option Text) (now : ℕ) : List Block :=
  match newTest with
  | none => []
  | some t => [⟨true, testEndActions o now⟩, ⟨false, testStartActions o t now⟩]

def logActions (l : ConsoleLine) (line : Text) : List Action :=
  [.quiet (fun s => some (logLine s l.loggedAt line)) (quiet_some (logLine_withWatchdog _ _)),
   .quiet (fun s => some (readMonitorCmd s l line)) (quiet_some (readMonitorCmd_withWatchdog _ _))]

def endBlocks (o : Options) (line : Text) (now : ℕ) : List Block :=
  if testIsEnding line then
    [⟨true, .quiet _ (quiet_testFileOpen o .status) ::
      .quiet _ (quiet_fillTestFile .status (fun _ => line ++ ['\n']) (fun _ _ => rfl)) ::
      testEndActions o now⟩]
  else []

/-- The loop body on a line that has been read, up to the `-S` and `-F` logic. -/
def bodyBlocks (o : Options) (l : ConsoleLine) : List Block :=
  let line := strim l.raw
  ⟨false, watchdogActions line⟩ ::
    (startBlocks o (testIsStarting line) l.now ++ ⟨false, logActions l line⟩ ::
      endBlocks o line l.now)

def Block.op (b : Block) : Operation := fun s =>
  if b.needsLog && s.currentTestLog.isNone then some s else runOps (b.actions.map Action.op) s

theorem runOps_watchdogActions (line : Text) (s : State) :
    runOps ((watchdogActions line).map Action.op) s = some (readWatchdog s line) := by
  unfold watchdogActions readWatchdog
  cases strStartsWith line "WATCHDOG ".toList with
  | none => rfl
  | some newWatchdog => rfl

theorem runOps_write (o : Options) (f : TestFile) (content : State → Text) (actions : List Action)
    (hw : ∀ s w, content (s.withWatchdog w) = content s)
    (hc : ∀ s files, content { s with files := files } = content s) (s : State) :
    runOps ((.quiet _ (quiet_testFileOpen o f) :: .quiet _ (quiet_fillTestFile f content hw) ::
      actions).map Action.op) s =
      (writeTestFile o s f (content s)).bind (runOps (actions.map Action.op)) := by
  rw [← open_bind_fill o s f content (hc s), Option.bind_assoc]
  rfl

theorem runOps_testEndActions (o : Options) (now : ℕ) (s : State) :
    runOps ((testEndActions o now).map Action.op) s = testEnd o s now :=
  runOps_write o .duration _ _ (fun _ _ => rfl) (fun _ _ => rfl) s

theorem runOps_testStartActions (o : Options) (newTest : Text) (now : ℕ) (s : State) :
    runOps ((testStartActions o newTest now).map Action.op) s = testStart o s newTest now := by
  rw [← runOps_testStartOps]
  rfl

theorem Block.op_plain (actions : List Action) :
    (⟨false, actions⟩ : Block).op = runOps (actions.map Action.op) := by
  funext s
  simp [Block.op]

theorem Block.op_closed {s : State} (h : s.currentTestLog = none) (actions : List Action) :
    (⟨true, actions⟩ : Block).op s = some s := by
  simp [Block.op, h]

theorem Block.op_open {s : State} {t : Text} (h : s.currentTestLog = some t) (actions : List Action) :
    (⟨true, actions⟩ : Block).op s = runOps (actions.map Action.op) s := by
  simp [Block.op, h]

theorem runOps_singleton (op : Operation) : runOps [op] = op := by
  funext s
  simp [runOps]

theorem runOps_startBlocks (o : Options) (newTest : Option Text) (now : ℕ) (s : State) :
    runOps ((startBlocks o newTest now).map Block.op) s = startTests o s newTest now := by
  cases newTest with
  | none => rfl
  | some t =>
    have hstart : (⟨false, testStartActions o t now⟩ : Block).op = fun s => testStart o s t now := by
      rw [Block.op_plain]
      exact funext (runOps_testStartActions o t now)
    simp only [startBlocks, startTests, List.map_cons, List.map_nil, runOps_cons, Option.bind_eq_bind,
      runOps_singleton, hstart]
    cases hlog : s.currentTestLog with
    | none => simp [Block.op_closed hlog]
    | some t₀ => simp [Block.op_open hlog, runOps_testEndActions]

theorem runOps_endBlocks (o : Options) (line : Text) (now : ℕ) (s : State) :
    runOps ((endBlocks o line now).map Block.op) s = endTests o s line now := by
  unfold endBlocks endTests
  cases testIsEnding line with
  | false => simp
  | true =>
    rw [if_pos rfl, List.map_singleton, runOps_singleton]
    cases hlog : s.currentTestLog with
    | none => simp [Block.op_closed hlog]
    | some t =>
      rw [Block.op_open hlog, runOps_write o .status _ _ (fun _ _ => rfl) (fun _ _ => rfl)]
      exact congrArg (Option.bind _) (funext (runOps_testEndActions o now))

theorem runOps_bodyBlocks (o : Options) (l : ConsoleLine) (s : State) :
    runOps ((bodyBlocks o l).map Block.op) s = runOps (bodyOps o l) s := by
  simp only [bodyBlocks, bodyOps, List.map_cons, List.map_append, runOps_cons, runOps_append,
    Block.op_plain, runOps_watchdogActions, Option.bind_some, runOps_startBlocks, runOps_startTestsOps]
  refine congrArg (Option.bind _) (funext ?_)
  intro s₁
  simp only [logActions, List.map_cons, List.map_nil, runOps_cons, runOps_nil, Action.op,
    Option.bind_some, runOps_endBlocks, runOps_endTestsOps]

inductive Signal where
  | sigterm | sigkill
  deriving DecidableEq, Repr

inductive Child where
  | running | stopped | terminated
  deriving DecidableEq, Repr

/-- What follows the fork, up to the read loop. -/
inductive Setup where
  | fcntl | fdopen | logOpen | catchChild | catchAlarm | setTimeout
  deriving DecidableEq, Repr

def setups : List Setup := [.fcntl, .fdopen, .logOpen, .catchChild, .catchAlarm, .setTimeout]

/-- Where the supervisor stands: on its way to the loop, in `getline`, in the loop body with the
statements and blocks still to come, behind the loop, or gone. -/
inductive Position where
  | starting (todo : List Setup)
  | waiting
  | handling (l : ConsoleLine) (actions : List Action) (blocks : List Block)
  | leaving (ret : ℕ)
  | exited (ret : ℕ)

def Position.isExited : Position → Bool
  | exited _ => true
  | _ => false

/-- The supervisor and its child. The `alarm` of the state is the one that is pending: `0` once
it has fired. -/
structure Process where
  state : State
  position : Position
  /-- The handler of `SIGALRM` is running, on top of where the supervisor stands. -/
  alarmed : Bool
  child : Child
  /-- `child_handler` is in place. -/
  catchesChild : Bool
  sigchldPending : Bool
  /-- All signals that were sent to the child. -/
  sent : List Signal
  /-- The alarms that were handled since the last `set_timeout`. -/
  alarms : ℕ
  /-- The signals that `alarm_handler` sent since then. -/
  escalation : List Signal

def Process.forked (o : Options) (files : Files) : Process where
  state := { initial o files with timeout := 0, alarm := 0 }
  position := .starting setups
  alarmed := false
  child := .running
  catchesChild := false
  sigchldPending := false
  sent := []
  alarms := 0
  escalation := []

def Process.ready (o : Options) (files : Files) : Process :=
  { Process.forked o files with state := initial o files, position := .waiting, catchesChild := true }

/-- What a handled alarm leaves: the state, what was written to the console and to `stderr`, and
the signal to the child. -/
structure AlarmEffect where
  state : State
  console : Text
  stderr : List Text
  signal : Option Signal

def timeoutMarker (s : State) : Text :=
  "========= FAILED TIMEOUT ".toList ++ s.currentTest.getD "(no test)".toList ++ " in ".toList ++
    Text.ofInt s.timeout ++ "s\n".toList

/-- The second stage, which is also the first where the console takes no input. -/
def alarmTerminates (s : State) : AlarmEffect where
  state := { s with timeoutStage := 2, alarm := 10 }
  console := []
  stderr := [timeoutMarker s, "guest did not echo timeout marker, killing it\n".toList]
  signal := some .sigterm

/-- The handler of `SIGALRM`. Whether the console accepts the marker is not up to the
supervisor. -/
def alarmHandler (s : State) (accepted : Bool) : AlarmEffect :=
  match s.timeoutStage with
  | 0 => if accepted then ⟨{ s with timeoutStage := 1, alarm := 30 }, timeoutMarker s, [], none⟩
    else alarmTerminates s
  | 1 => alarmTerminates s
  | n + 2 => ⟨{ s with timeoutStage := n + 3, alarm := 10 }, [],
      ["child ignored SIGTERM, sending SIGKILL\n".toList], some .sigkill⟩

inductive ProcessEvent where
  /-- The next step on the way to the loop. -/
  | setsUp
  | getline (l : ConsoleLine)
  /-- `getline` fails, and not because of a signal. -/
  | getlineFails
  /-- The next statement of the loop body, or its end. -/
  | advances
  /-- `kill` and `exit` behind the loop. -/
  | quits
  /-- A call of the C library fails where the source dies for it: for memory, the clock, a
  handler, or a file that cannot be opened although its directory is there. -/
  | fails
  /-- `SIGALRM` is delivered. -/
  | alarm
  | alarmHandled (accepted : Bool)
  /-- One of the signals of `term_handler`. -/
  | term
  | sigchld
  | childStops
  | childContinues
  | childTerminates

def Position.ready : List Setup → Position
  | [] => waiting
  | todo => starting todo

def Process.setUp (o : Options) (p : Process) : Setup → Process
  | .catchChild => { p with catchesChild := true }
  | .setTimeout =>
    { p with state := Supervisor.setTimeout p.state o.defaultTimeout, alarms := 0, escalation := [] }
  | .fcntl | .fdopen | .logOpen | .catchAlarm => p

/-- A `set_timeout` begins with the reset of the stage. -/
def Process.note (p : Process) : Action → Process
  | .resetStage => { p with alarms := 0, escalation := [] }
  | _ => p

/-- The next statement of the loop body, the next block, or the end of the body. -/
def Process.advance (o : Options) (p : Process) (l : ConsoleLine) : List Action → List Block → Process
  | a :: actions, blocks => match a.op p.state with
    | some s => { p.note a with state := s, position := .handling l actions blocks }
    | none => { p with position := .exited 1 }
  | [], b :: blocks =>
    if b.needsLog && p.state.currentTestLog.isNone then { p with position := .handling l [] blocks }
    else { p with position := .handling l b.actions blocks }
  | [], [] => match afterBody o l p.state with
    | .next s => { p with state := s, position := .waiting }
    | .leaves s ret => { p with state := s, position := .leaving ret }
    | .dies => { p with position := .exited 1 }

def Process.handled (p : Process) (accepted : Bool) : Process :=
  let effect := alarmHandler p.state accepted
  { p with
    state := effect.state
    alarmed := false
    sent := p.sent ++ effect.signal.toList
    alarms := p.alarms + 1
    escalation := p.escalation ++ effect.signal.toList }

/-- Without `SA_NOCLDSTOP` every change of the child raises `SIGCHLD`, which is ignored until
the handler is in place. -/
def Process.childChanges (p : Process) (child : Child) : Process :=
  { p with child := child, sigchldPending := p.sigchldPending || p.catchesChild }

/-- `term_handler` and the end of `main`. -/
def Process.killAndExit (p : Process) (ret : ℕ) : Process :=
  { p with position := .exited ret, sent := p.sent ++ [.sigterm] }

/-- `die`, and `child_handler`. -/
def Process.exit (p : Process) : Process := { p with position := .exited 1 }

/-- Where the source can die: on the way to the loop, in its body, and in `alarm_handler`. -/
def Process.mayFail (p : Process) : Bool :=
  p.alarmed || match p.position with
    | .starting (x :: _) => x != .setTimeout
    | .handling _ _ _ => true
    | _ => false

def Process.step (o : Options) (p : Process) : ProcessEvent → Option Process
  | .setsUp => match p.alarmed, p.position with
    | false, .starting (x :: todo) => some { p.setUp o x with position := .ready todo }
    | _, _ => none
  | .getline l => match p.alarmed, p.position with
    | false, .waiting => some { p with position := .handling l [] (bodyBlocks o l) }
    | _, _ => none
  | .getlineFails => match p.alarmed, p.position with
    | false, .waiting => some { p with position := .leaving 1 }
    | _, _ => none
  | .advances => match p.alarmed, p.position with
    | false, .handling l actions blocks => some (p.advance o l actions blocks)
    | _, _ => none
  | .quits => match p.alarmed, p.position with
    | false, .leaving ret => some (p.killAndExit ret)
    | _, _ => none
  | .fails => if !p.position.isExited && p.mayFail then some p.exit else none
  | .alarm => if !p.position.isExited && !p.alarmed && p.state.alarm != 0 then
      some { p with state := { p.state with alarm := 0 }, alarmed := true }
    else none
  | .alarmHandled accepted => if !p.position.isExited && p.alarmed then some (p.handled accepted) else none
  | .term => if !p.position.isExited then some (p.killAndExit 1) else none
  | .sigchld => if !p.position.isExited && p.sigchldPending then some p.exit else none
  | .childStops => if p.child = .running then some (p.childChanges .stopped) else none
  | .childContinues => if p.child = .stopped then some (p.childChanges .running) else none
  | .childTerminates => if p.child ≠ .terminated then some (p.childChanges .terminated) else none

/-- The condition on the lines that are read. -/
def ProcessEvent.Reads (allowed : ConsoleLine → Prop) (e : ProcessEvent) : Prop :=
  ∀ l, e = .getline l → allowed l

theorem run_setups (o : Options) (files : Files) (es : List ProcessEvent) :
    run (Process.step o) (.forked o files) (List.replicate 6 .setsUp ++ es) =
      run (Process.step o) (.ready o files) es := rfl

/-- Everything that can happen to the process. -/
inductive Process.Moves (o : Options) (p : Process) : ProcessEvent → Process → Prop
  | setsUp (x : Setup) (todo : List Setup) (hpos : p.position = .starting (x :: todo)) :
      Moves o p .setsUp { p.setUp o x with position := .ready todo }
  | getline (l : ConsoleLine) (hpos : p.position = .waiting) :
      Moves o p (.getline l) { p with position := .handling l [] (bodyBlocks o l) }
  | getlineFails (hpos : p.position = .waiting) : Moves o p .getlineFails { p with position := .leaving 1 }
  | acts (l : ConsoleLine) (a : Action) (actions : List Action) (blocks : List Block) (s : State)
      (hpos : p.position = .handling l (a :: actions) blocks) (hop : a.op p.state = some s) :
      Moves o p .advances { p.note a with state := s, position := .handling l actions blocks }
  | dies (l : ConsoleLine) (a : Action) (actions : List Action) (blocks : List Block)
      (hpos : p.position = .handling l (a :: actions) blocks) (hop : a.op p.state = none) :
      Moves o p .advances p.exit
  | skips (l : ConsoleLine) (b : Block) (blocks : List Block)
      (hpos : p.position = .handling l [] (b :: blocks)) (hneeds : b.needsLog = true)
      (hlog : p.state.currentTestLog = none) :
      Moves o p .advances { p with position := .handling l [] blocks }
  | enters (l : ConsoleLine) (b : Block) (blocks : List Block)
      (hpos : p.position = .handling l [] (b :: blocks))
      (hlog : b.needsLog = true → p.state.currentTestLog ≠ none) :
      Moves o p .advances { p with position := .handling l b.actions blocks }
  | loops (l : ConsoleLine) (s : State) (hpos : p.position = .handling l [] [])
      (hs : s = p.state ∨ s = { p.state with alarm := 5 }) :
      Moves o p .advances { p with state := s, position := .waiting }
  | breaks (l : ConsoleLine) (ret : ℕ) (hpos : p.position = .handling l [] []) :
      Moves o p .advances { p with position := .leaving ret }
  | quits (ret : ℕ) (hpos : p.position = .leaving ret) : Moves o p .quits (p.killAndExit ret)
  | fails : Moves o p .fails p.exit
  | alarm (hthere : p.position.isExited = false) (harmed : p.state.alarm ≠ 0) :
      Moves o p .alarm { p with state := { p.state with alarm := 0 }, alarmed := true }
  | alarmHandled (accepted : Bool) (hthere : p.position.isExited = false) (halarmed : p.alarmed = true) :
      Moves o p (.alarmHandled accepted) (p.handled accepted)
  | term : Moves o p .term (p.killAndExit 1)
  | sigchld (hpending : p.sigchldPending = true) : Moves o p .sigchld p.exit
  | childStops : Moves o p .childStops (p.childChanges .stopped)
  | childContinues (hstopped : p.child = .stopped) : Moves o p .childContinues (p.childChanges .running)
  | childTerminates : Moves o p .childTerminates (p.childChanges .terminated)

theorem Process.moves_advance {o : Options} {p : Process} {l : ConsoleLine} {actions : List Action}
    {blocks : List Block} (hpos : p.position = .handling l actions blocks) :
    p.Moves o .advances (p.advance o l actions blocks) := by
  cases actions with
  | cons a actions =>
    rw [Process.advance]
    cases hop : a.op p.state with
    | none => exact .dies l a actions blocks hpos hop
    | some s => exact .acts l a actions blocks s hpos hop
  | nil =>
    cases blocks with
    | cons b blocks =>
      rw [Process.advance]
      split_ifs with hskip
      · rw [Bool.and_eq_true, Option.isNone_iff_eq_none] at hskip
        exact .skips l b blocks hpos hskip.1 hskip.2
      · refine .enters l b blocks hpos ?_
        intro hneeds hlog
        exact hskip (by simp [hneeds, hlog])
    | nil =>
      rw [Process.advance, afterBody]
      cases stops o (strim l.raw) with
      | some ret => exact .breaks l ret hpos
      | none =>
        refine .loops l _ hpos ?_
        split_ifs
        · exact .inr rfl
        · exact .inl rfl

theorem Process.moves_of_step {o : Options} {p p' : Process} {e : ProcessEvent}
    (h : p.step o e = some p') : p.Moves o e p' := by
  cases e with
  | setsUp =>
    simp only [Process.step] at h
    split at h
    next x todo _ hpos =>
      obtain rfl := Option.some.inj h
      exact .setsUp x todo hpos
    next => cases h
  | getline l =>
    simp only [Process.step] at h
    split at h
    next _ hpos =>
      obtain rfl := Option.some.inj h
      exact .getline l hpos
    next => cases h
  | getlineFails =>
    simp only [Process.step] at h
    split at h
    next _ hpos =>
      obtain rfl := Option.some.inj h
      exact .getlineFails hpos
    next => cases h
  | advances =>
    simp only [Process.step] at h
    split at h
    next l actions blocks _ hpos =>
      obtain rfl := Option.some.inj h
      exact Process.moves_advance hpos
    next => cases h
  | quits =>
    simp only [Process.step] at h
    split at h
    next ret _ hpos =>
      obtain rfl := Option.some.inj h
      exact .quits ret hpos
    next => cases h
  | fails =>
    obtain ⟨-, rfl⟩ := guard_eq_some h
    exact .fails
  | alarm =>
    obtain ⟨hguard, rfl⟩ := guard_eq_some h
    simp only [Bool.and_eq_true, Bool.not_eq_true', bne_iff_ne] at hguard
    exact .alarm hguard.1.1 hguard.2
  | alarmHandled accepted =>
    obtain ⟨hguard, rfl⟩ := guard_eq_some h
    simp only [Bool.and_eq_true, Bool.not_eq_true'] at hguard
    exact .alarmHandled accepted hguard.1 hguard.2
  | term =>
    obtain ⟨-, rfl⟩ := guard_eq_some h
    exact .term
  | sigchld =>
    obtain ⟨hguard, rfl⟩ := guard_eq_some h
    simp only [Bool.and_eq_true, Bool.not_eq_true'] at hguard
    exact .sigchld hguard.2
  | childStops =>
    obtain ⟨-, rfl⟩ := guard_eq_some h
    exact .childStops
  | childContinues =>
    obtain ⟨hstopped, rfl⟩ := guard_eq_some h
    exact .childContinues hstopped
  | childTerminates =>
    obtain ⟨-, rfl⟩ := guard_eq_some h
    exact .childTerminates

end KtestCi.Supervisor
