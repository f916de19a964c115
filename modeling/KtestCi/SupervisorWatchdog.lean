import KtestCi.SupervisorSignals

/-!
# The watchdog of the supervisor

An alarm is the only bound on a guest that says nothing more. The supervisor has one pending
from its first `set_timeout` on, or its handler is running, as long as no `WATCHDOG` line turns
it off: `alarm` gets the number of the line modulo `2 ^ 32`, and `alarm(0)` cancels. Alarms
that are not answered by a `set_timeout` end in `SIGTERM` and then `SIGKILL`.
-/

namespace KtestCi.Supervisor
open EventRuns

def Position.isWatching : Position → Bool
  | waiting | handling _ _ _ | leaving _ => true
  | starting _ | exited _ => false

/-- An alarm is pending or being handled, and the third alarm in a row has killed the child. -/
structure Process.WatchdogLives (p : Process) : Prop where
  armed : p.position.isWatching = true → p.state.alarm ≠ 0 ∨ p.alarmed = true
  escalates : 3 ≤ p.alarms → [.sigterm, .sigkill] <+: p.escalation

/-- A line that does not turn the watchdog off. What `atol` makes of a text without a number is
`0`. -/
def ConsoleLine.KeepsWatchdog (l : ConsoleLine) : Prop :=
  ∀ newWatchdog, strStartsWith (strim l.raw) "WATCHDOG ".toList = some newWatchdog →
    atol newWatchdog % 2 ^ 32 ≠ 0

/-- A statement that does not turn the alarm off. -/
def Action.Arms : Action → Prop
  | alarm seconds => seconds % 2 ^ 32 ≠ 0
  | _ => True

/-- The signals that the handler sends up to a stage. -/
def escalated : ℕ → List Signal
  | 0 | 1 => []
  | n + 2 => .sigterm :: List.replicate n .sigkill

/-- A handled alarm moves the stage on, by one or by two, and sends what belongs to it. -/
theorem alarmHandler_spec (s : State) (accepted : Bool) :
    s.timeoutStage + 1 ≤ (alarmHandler s accepted).state.timeoutStage ∧
      escalated (alarmHandler s accepted).state.timeoutStage =
        escalated s.timeoutStage ++ (alarmHandler s accepted).signal.toList ∧
      (alarmHandler s accepted).state.alarm ≠ 0 := by
  unfold alarmHandler
  match hstage : s.timeoutStage with
  | 0 =>
    cases accepted with
    | true => simp [escalated]
    | false => simp [alarmTerminates, escalated]
  | 1 => simp [alarmTerminates, escalated]
  | n + 2 => simp [escalated, List.replicate_succ']

/-- Every alarm since the last `set_timeout` has moved the stage on. -/
structure Process.Escalating (p : Process) : Prop where
  alarms_le : p.alarms ≤ p.state.timeoutStage
  escalation_eq : p.escalation = escalated p.state.timeoutStage

theorem Process.Escalating.escalates {p : Process} (h : p.Escalating) (halarms : 3 ≤ p.alarms) :
    [.sigterm, .sigkill] <+: p.escalation := by
  obtain ⟨n, hn⟩ : ∃ n, p.state.timeoutStage = n + 3 := ⟨p.state.timeoutStage - 3, by
    have hle := h.alarms_le
    omega⟩
  rw [h.escalation_eq, hn, escalated, List.replicate_succ]
  simp

variable {o : Options} {p p' : Process} {e : ProcessEvent}

theorem Process.Escalating.step (h : p.Escalating) (hstep : p.step o e = some p') : p'.Escalating := by
  cases Process.moves_of_step hstep with
  | setsUp x todo hpos =>
    cases x with
    | setTimeout => exact ⟨Nat.zero_le _, rfl⟩
    | fcntl => exact ⟨h.alarms_le, h.escalation_eq⟩
    | fdopen => exact ⟨h.alarms_le, h.escalation_eq⟩
    | logOpen => exact ⟨h.alarms_le, h.escalation_eq⟩
    | catchChild => exact ⟨h.alarms_le, h.escalation_eq⟩
    | catchAlarm => exact ⟨h.alarms_le, h.escalation_eq⟩
  | acts l a actions blocks s hpos hop =>
    cases a with
    | quiet op hquiet =>
      have hstage : s.timeoutStage = p.state.timeoutStage :=
        congrArg Watchdog.stage (hquiet.watchdog_eq hop)
      exact ⟨hstage ▸ h.alarms_le, hstage ▸ h.escalation_eq⟩
    | resetStage =>
      obtain rfl := Option.some.inj hop
      exact ⟨Nat.zero_le _, rfl⟩
    | storeTimeout newTimeout =>
      obtain rfl := Option.some.inj hop
      exact ⟨h.alarms_le, h.escalation_eq⟩
    | alarm seconds =>
      obtain rfl := Option.some.inj hop
      exact ⟨h.alarms_le, h.escalation_eq⟩
  | loops l s hpos hs =>
    have hstage : s.timeoutStage = p.state.timeoutStage := by
      rcases hs with rfl | rfl <;> rfl
    exact ⟨hstage ▸ h.alarms_le, hstage ▸ h.escalation_eq⟩
  | alarmHandled accepted hthere halarmed =>
    obtain ⟨hstage, hsent, -⟩ := alarmHandler_spec p.state accepted
    have hle := h.alarms_le
    refine ⟨?_, ?_⟩
    · simp only [Process.handled]
      omega
    · simp only [Process.handled]
      rw [hsent, h.escalation_eq]
  | _ => exact ⟨h.alarms_le, h.escalation_eq⟩

theorem setTimeoutActions_arms {newTimeout : ℕ} (h : newTimeout % 2 ^ 32 ≠ 0) :
    ∀ a ∈ setTimeoutActions newTimeout, a.Arms := by
  intro a ha
  simp only [setTimeoutActions, List.mem_cons, List.not_mem_nil, or_false] at ha
  rcases ha with rfl | rfl | rfl
  · trivial
  · trivial
  · exact h

theorem watchdog_mod (n : ℤ) : (n % 2 ^ 64).toNat % 2 ^ 32 = 0 ↔ n % 2 ^ 32 = 0 := by omega

theorem testEndActions_arms (hdefault : o.defaultTimeout % 2 ^ 32 ≠ 0) (now : ℕ) :
    ∀ a ∈ testEndActions o now, a.Arms := by
  simp only [testEndActions, List.forall_mem_cons]
  exact ⟨trivial, trivial, trivial, setTimeoutActions_arms hdefault⟩

theorem testStartActions_arms (hdefault : o.defaultTimeout % 2 ^ 32 ≠ 0) (t : Text) (now : ℕ) :
    ∀ a ∈ testStartActions o t now, a.Arms := by
  simp only [testStartActions, List.forall_mem_cons]
  exact ⟨trivial, trivial, trivial, trivial, setTimeoutActions_arms hdefault⟩

/-- Only a `WATCHDOG` line can turn the alarm off. -/
theorem bodyBlocks_arms (hdefault : o.defaultTimeout % 2 ^ 32 ≠ 0) {l : ConsoleLine}
    (hl : l.KeepsWatchdog) : ∀ b ∈ bodyBlocks o l, ∀ a ∈ b.actions, a.Arms := by
  simp only [bodyBlocks, List.forall_mem_cons, List.forall_mem_append]
  refine ⟨?_, ?_, ?_, ?_⟩
  · unfold watchdogActions
    cases hline : strStartsWith (strim l.raw) "WATCHDOG ".toList with
    | none => simp
    | some newWatchdog =>
      refine setTimeoutActions_arms ?_
      rw [Ne, watchdog_mod]
      exact hl newWatchdog hline
  · cases testIsStarting (strim l.raw) with
    | none => simp [startBlocks]
    | some t =>
      simp only [startBlocks, List.forall_mem_cons]
      exact ⟨testEndActions_arms hdefault l.now, testStartActions_arms hdefault t l.now, by simp⟩
  · simp only [logActions, List.forall_mem_cons]
    exact ⟨trivial, trivial, by simp⟩
  · unfold endBlocks
    split_ifs with hend
    · simp only [List.forall_mem_cons]
      exact ⟨⟨trivial, trivial, testEndActions_arms hdefault l.now⟩, by simp⟩
    · simp

/-- The way to the loop ends with a `set_timeout`, and no statement to come turns the alarm off. -/
def Position.Arms : Position → Prop
  | starting todo => todo.getLast? = some .setTimeout
  | handling _ actions blocks => (∀ a ∈ actions, a.Arms) ∧ ∀ b ∈ blocks, ∀ a ∈ b.actions, a.Arms
  | waiting | leaving _ | exited _ => True

structure Process.Armed (p : Process) : Prop where
  armed : p.position.isWatching = true → p.state.alarm ≠ 0 ∨ p.alarmed = true
  position : p.position.Arms

theorem Process.armed_exit (p : Process) : p.exit.Armed := ⟨(fun h => by cases h), trivial⟩

theorem Process.armed_killAndExit (p : Process) (ret : ℕ) : (p.killAndExit ret).Armed :=
  ⟨(fun h => by cases h), trivial⟩

theorem Process.Armed.setsUp (h : p.Armed) (hdefault : o.defaultTimeout % 2 ^ 32 ≠ 0) {x : Setup}
    {todo : List Setup} (hpos : p.position = .starting (x :: todo)) :
    Process.Armed { p.setUp o x with position := .ready todo } := by
  have hlast : (x :: todo).getLast? = some .setTimeout := by
    have hstart := h.position
    rwa [hpos] at hstart
  cases todo with
  | nil =>
    obtain rfl : x = .setTimeout := by simpa using hlast
    exact ⟨fun _ => .inl hdefault, trivial⟩
  | cons y todo =>
    rw [List.getLast?_cons_cons] at hlast
    exact ⟨fun hwatch => (by cases hwatch), hlast⟩

theorem Action.op_alarm {a : Action} (ha : a.Arms) {s s' : State} (hop : a.op s = some s')
    (hs : s.alarm ≠ 0) : s'.alarm ≠ 0 := by
  cases a with
  | quiet op hquiet =>
    have halarm : s'.alarm = s.alarm := congrArg Watchdog.alarm (hquiet.watchdog_eq hop)
    rwa [halarm]
  | resetStage =>
    obtain rfl := Option.some.inj hop
    exact hs
  | storeTimeout newTimeout =>
    obtain rfl := Option.some.inj hop
    exact hs
  | alarm seconds =>
    obtain rfl := Option.some.inj hop
    exact ha

theorem Process.Armed.step (hdefault : o.defaultTimeout % 2 ^ 32 ≠ 0) (h : p.Armed)
    (he : e.Reads ConsoleLine.KeepsWatchdog) (hstep : p.step o e = some p') : p'.Armed := by
  have hbody : ∀ {l actions blocks}, p.position = .handling l actions blocks →
      (p.state.alarm ≠ 0 ∨ p.alarmed = true) ∧ (∀ a ∈ actions, a.Arms) ∧
        ∀ b ∈ blocks, ∀ a ∈ b.actions, a.Arms := by
    intro l actions blocks hpos
    have harms := h.position
    rw [hpos] at harms
    exact ⟨h.armed (by rw [hpos]; rfl), harms⟩
  cases Process.moves_of_step hstep with
  | setsUp x todo hpos => exact h.setsUp hdefault hpos
  | getline l hpos =>
    exact ⟨fun _ => h.armed (by rw [hpos]; rfl), by simp, bodyBlocks_arms hdefault (he l rfl)⟩
  | getlineFails hpos => exact ⟨fun _ => h.armed (by rw [hpos]; rfl), trivial⟩
  | acts l a actions blocks s hpos hop =>
    obtain ⟨halarm, hactions, hblocks⟩ := hbody hpos
    rw [List.forall_mem_cons] at hactions
    have hnote : (p.note a).alarmed = p.alarmed := by cases a <;> rfl
    refine ⟨fun _ => ?_, hactions.2, hblocks⟩
    exact halarm.imp (Action.op_alarm hactions.1 hop) (fun halarmed => hnote.trans halarmed)
  | dies l a actions blocks hpos hop => exact p.armed_exit
  | skips l b blocks hpos hneeds hlog =>
    obtain ⟨halarm, -, hblocks⟩ := hbody hpos
    rw [List.forall_mem_cons] at hblocks
    exact ⟨fun _ => halarm, by simp, hblocks.2⟩
  | enters l b blocks hpos hlog =>
    obtain ⟨halarm, -, hblocks⟩ := hbody hpos
    rw [List.forall_mem_cons] at hblocks
    exact ⟨fun _ => halarm, hblocks⟩
  | loops l s hpos hs =>
    obtain ⟨halarm, -, -⟩ := hbody hpos
    refine ⟨fun _ => ?_, trivial⟩
    rcases hs with rfl | rfl
    · exact halarm
    · exact .inl (by simp)
  | breaks l ret hpos => exact ⟨fun _ => (hbody hpos).1, trivial⟩
  | quits ret hpos => exact p.armed_killAndExit ret
  | fails => exact p.armed_exit
  | alarm hthere harmed => exact ⟨fun _ => .inr rfl, h.position⟩
  | alarmHandled accepted hthere halarmed =>
    exact ⟨fun _ => .inl (alarmHandler_spec p.state accepted).2.2, h.position⟩
  | term => exact p.armed_killAndExit 1
  | sigchld hpending => exact p.armed_exit
  | childStops => exact ⟨h.armed, h.position⟩
  | childContinues hstopped => exact ⟨h.armed, h.position⟩
  | childTerminates => exact ⟨h.armed, h.position⟩

variable {files : Files} {es : List ProcessEvent}

theorem watchdogLives_of_run (hdefault : o.defaultTimeout % 2 ^ 32 ≠ 0)
    (hes : ∀ e ∈ es, e.Reads ConsoleLine.KeepsWatchdog)
    (hrun : run (Process.step o) (.forked o files) es = some p) : p.WatchdogLives := by
  have hescalating : p.Escalating :=
    run_invariant_all (fun _ _ _ h => h.step) ⟨le_rfl, rfl⟩ hrun
  have hforked : (Process.forked o files).Armed := ⟨(fun h => by cases h), rfl⟩
  have harmed : p.Armed := run_invariant (fun _ _ _ he h => h.step hdefault he) hes hforked hrun
  exact ⟨harmed.armed, hescalating.escalates⟩

theorem not_watchdogLives_of_line {l : ConsoleLine} (hl : ¬ l.KeepsWatchdog) (files : Files) :
    ∃ p, run (Process.step o) (.forked o files) (List.replicate 6 .setsUp ++
      .getline l :: List.replicate 4 .advances) = some p ∧ ¬ p.WatchdogLives := by
  obtain ⟨newWatchdog, hline, hzero⟩ : ∃ newWatchdog,
      strStartsWith (strim l.raw) "WATCHDOG ".toList = some newWatchdog ∧ atol newWatchdog % 2 ^ 32 = 0 := by
    simpa [ConsoleLine.KeepsWatchdog] using hl
  obtain ⟨blocks, hblocks⟩ : ∃ blocks, bodyBlocks o l =
      ⟨false, setTimeoutActions (atol newWatchdog % 2 ^ 64).toNat⟩ :: blocks := by
    simp only [bodyBlocks, watchdogActions, hline]
    exact ⟨_, rfl⟩
  let p : Process := { Process.ready o files with
    state := setTimeout (initial o files) (atol newWatchdog % 2 ^ 64).toNat
    position := .handling l [] blocks }
  have hline : run (Process.step o) { Process.ready o files with
      position := .handling l [] (bodyBlocks o l) } (List.replicate 4 .advances) = some p := by
    rw [hblocks]
    rfl
  refine ⟨p, ?_, ?_⟩
  · rw [run_setups]
    exact hline
  · intro h
    rcases h.armed rfl with halarm | halarmed
    · exact halarm ((watchdog_mod _).mpr hzero)
    · cases halarmed

/-- The supervisor always has a live watchdog exactly if no `WATCHDOG` line turns it off. -/
theorem watchdogLives_iff (hpos : 0 < o.defaultTimeout) (hlt : o.defaultTimeout < 2 ^ 32)
    (allowed : ConsoleLine → Prop) :
    (∀ (files : Files) (es : List ProcessEvent) (p : Process), (∀ e ∈ es, e.Reads allowed) →
      run (Process.step o) (.forked o files) es = some p → p.WatchdogLives) ↔
      ∀ l, allowed l → l.KeepsWatchdog := by
  have hdefault : o.defaultTimeout % 2 ^ 32 ≠ 0 := by
    rw [Nat.mod_eq_of_lt hlt]
    omega
  constructor
  · intro h l hl
    by_contra hbad
    obtain ⟨p, hrun, hlives⟩ := not_watchdogLives_of_line (o := o) hbad (fun _ _ => none)
    refine hlives (h _ _ p ?_ hrun)
    intro e he l' hl'
    subst hl'
    obtain rfl : l' = l := by simpa using he
    exact hl
  · intro h files es p hes hrun
    exact watchdogLives_of_run hdefault (fun e he l hl => h l (hes e he l hl)) hrun

def ciOptions : Options := ⟨true, true, 600, fun _ => true⟩

theorem watchdogLives_ciOptions :
    (∀ (files : Files) (es : List ProcessEvent) (p : Process),
      (∀ e ∈ es, e.Reads ConsoleLine.KeepsWatchdog) →
      run (Process.step ciOptions) (.forked ciOptions files) es = some p → p.WatchdogLives) ↔
      ∀ l : ConsoleLine, l.KeepsWatchdog → l.KeepsWatchdog :=
  watchdogLives_iff (by decide) (by decide) ConsoleLine.KeepsWatchdog

def watchdogOff : ConsoleLine := ⟨"WATCHDOG 0\n".toList, 1, 1, false, [], []⟩

/-- After `WATCHDOG 0` the supervisor waits for the next line without any bound. -/
theorem not_watchdogLives_watchdogOff :
    ∃ p, run (Process.step ciOptions) (.forked ciOptions (fun _ _ => none))
        (List.replicate 6 .setsUp ++ .getline watchdogOff :: List.replicate 8 .advances) = some p ∧
      p.position = .waiting ∧ p.state.alarm = 0 ∧ p.alarmed = false ∧ ¬ p.WatchdogLives := by
  refine ⟨_, rfl, rfl, rfl, rfl, ?_⟩
  intro h
  rcases h.armed rfl with halarm | halarmed
  · exact halarm rfl
  · cases halarmed

end KtestCi.Supervisor
