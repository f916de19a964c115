import KtestCi.SupervisorSignals

/-!
# The supervisor and the child it leaves behind

`term_handler` and the end of `main` send `SIGTERM` before they exit. `die` and
`child_handler` do not: a test without its result directory, a call of the C library that
fails, and a `SIGCHLD` for a child that was only stopped end the supervisor while the child
runs on. Nothing else does.
-/

namespace KtestCi.Supervisor
open EventRuns

/-- A supervisor that is gone has not left a child behind. -/
def Process.ChildKept (p : Process) : Prop :=
  p.position.isExited = true → p.child = .terminated ∨ p.sent ≠ []

/-- The statements and blocks that are still to come, in a row. -/
def runRest (actions : List Action) (blocks : List Block) (s : State) : Option State :=
  (runOps (actions.map Action.op) s).bind (runOps (blocks.map Block.op))

theorem runRest_cons (a : Action) (actions : List Action) (blocks : List Block) (s : State) :
    runRest (a :: actions) blocks s = (a.op s).bind (runRest actions blocks) := by
  simp only [runRest, List.map_cons, runOps_cons, Option.bind_assoc]
  rfl

theorem runRest_skip {b : Block} {s : State} (hneeds : b.needsLog = true)
    (hlog : s.currentTestLog = none) (blocks : List Block) :
    runRest [] (b :: blocks) s = runRest [] blocks s := by
  simp [runRest, Block.op, hneeds, hlog]

theorem runRest_enter {b : Block} {s : State} (hlog : b.needsLog = true → s.currentTestLog ≠ none)
    (blocks : List Block) : runRest [] (b :: blocks) s = runRest b.actions blocks s := by
  have hop : b.op s = runOps (b.actions.map Action.op) s := by
    rw [Block.op, if_neg]
    simpa using hlog
  simp [runRest, hop]

theorem Action.op_withWatchdog (a : Action) (s : State) (w : Watchdog) :
    ∃ w', a.op (s.withWatchdog w) = (a.op s).map (fun s' => s'.withWatchdog w') := by
  cases a with
  | quiet op h => exact ⟨w, h s w⟩
  | resetStage => exact ⟨{ w with stage := 0 }, rfl⟩
  | storeTimeout newTimeout => exact ⟨{ w with timeout := newTimeout }, rfl⟩
  | alarm seconds => exact ⟨{ w with alarm := seconds % 2 ^ 32 }, rfl⟩

theorem runOps_withWatchdog {ops : List Operation}
    (h : ∀ op ∈ ops, ∀ s w, ∃ w', op (s.withWatchdog w) = (op s).map (fun s' => s'.withWatchdog w'))
    (s : State) (w : Watchdog) :
    ∃ w', runOps ops (s.withWatchdog w) = (runOps ops s).map (fun s' => s'.withWatchdog w') := by
  induction ops generalizing s w with
  | nil => exact ⟨w, rfl⟩
  | cons op ops ih =>
    rw [List.forall_mem_cons] at h
    obtain ⟨w₁, hw₁⟩ := h.1 s w
    rw [runOps_cons, runOps_cons, hw₁]
    cases op s with
    | none => exact ⟨w, rfl⟩
    | some s₁ => exact ih h.2 s₁ w₁

theorem Block.op_withWatchdog (b : Block) (s : State) (w : Watchdog) :
    ∃ w', b.op (s.withWatchdog w) = (b.op s).map (fun s' => s'.withWatchdog w') := by
  have hlog : (s.withWatchdog w).currentTestLog = s.currentTestLog := rfl
  simp only [Block.op, hlog]
  split_ifs
  · exact ⟨w, rfl⟩
  · refine runOps_withWatchdog ?_ s w
    simpa using fun a _ => a.op_withWatchdog

theorem runRest_withWatchdog (actions : List Action) (blocks : List Block) (s : State) (w : Watchdog) :
    ∃ w', runRest actions blocks (s.withWatchdog w) =
      (runRest actions blocks s).map (fun s' => s'.withWatchdog w') := by
  have hops : ∀ op ∈ actions.map Action.op, ∀ s w, ∃ w',
      op (s.withWatchdog w) = (op s).map (fun s' => s'.withWatchdog w') := by
    simpa using fun a _ => a.op_withWatchdog
  obtain ⟨w₁, hw₁⟩ := runOps_withWatchdog hops s w
  rw [runRest, runRest, hw₁]
  cases runOps (actions.map Action.op) s with
  | none => exact ⟨w, rfl⟩
  | some s₁ =>
    exact runOps_withWatchdog (by simpa using fun b _ => b.op_withWatchdog) s₁ w₁

variable {o : Options} {s s' : State} {l : ConsoleLine}

/-- An open log is that of the current test, whose directory is there. -/
def State.LogPrepared (o : Options) (s : State) : Prop :=
  ∀ t, s.currentTestLog = some t → s.currentTest = some t ∧ o.prepared t = true

theorem startTests_of_prepared (hs : s.LogPrepared o) (hl : l.Prepared o) :
    ∃ s', startTests o s (testIsStarting (strim l.raw)) l.now = some s' ∧ s'.LogPrepared o := by
  cases hstart : testIsStarting (strim l.raw) with
  | none => exact ⟨s, rfl, hs⟩
  | some t =>
    have hp := hl t (l.testIsStarting_strim.symm.trans hstart)
    obtain ⟨s', hstarts, -, hcur, hlog, -⟩ := startTests_spec hp hs l.now
    refine ⟨s', hstarts, ?_⟩
    intro t' ht'
    obtain rfl : t = t' := Option.some.inj (hlog.symm.trans ht')
    exact ⟨hcur, hp⟩

theorem endTests_of_prepared (hs : s.LogPrepared o) (l : ConsoleLine) (now : ℕ) :
    ∃ s', endTests o s (strim l.raw) now = some s' ∧ s'.LogPrepared o := by
  obtain ⟨s', hends, hspec⟩ := endTests_spec hs l now
  refine ⟨s', hends, ?_⟩
  intro t ht
  cases hlog : s.currentTestLog with
  | none =>
    rw [(hspec.closed hlog).2] at ht
    cases ht
  | some t₀ =>
    rw [hspec.currentTestLog t₀ hlog] at ht
    split_ifs at ht
    obtain rfl := Option.some.inj ht
    rw [hspec.currentTest]
    exact hs t₀ hlog

theorem runRest_of_prepared (hs : s.LogPrepared o) (hl : l.Prepared o) :
    ∃ s', runRest [] (bodyBlocks o l) s = some s' ∧ s'.LogPrepared o := by
  have hwatch : (readWatchdog s (strim l.raw)).LogPrepared o := by
    obtain ⟨-, -, hcur, hlog⟩ := readWatchdog_sameRecords s (strim l.raw)
    rwa [State.LogPrepared, hcur, hlog]
  obtain ⟨s₁, hstart, hs₁⟩ := startTests_of_prepared hwatch hl
  obtain ⟨out, m, -, hlogged⟩ := readMonitorCmd_logLine s₁ l
  have hemit : State.LogPrepared o { s₁.emit out with monitor := m } := hs₁
  obtain ⟨s₂, hend, hs₂⟩ := endTests_of_prepared hemit l l.now
  refine ⟨s₂, ?_, hs₂⟩
  rw [runRest, List.map_nil, runOps_nil, Option.bind_some, runOps_bodyBlocks]
  simp only [bodyOps, runOps_cons, runOps_append, Option.bind_some, runOps_startTestsOps, hstart,
    runOps_endTestsOps, hlogged, hend]

variable {p p' : Process} {e : ProcessEvent}

def Process.GetsThrough (o : Options) (p : Process) : Prop :=
  match p.position with
  | .handling _ actions blocks => ∃ s', runRest actions blocks p.state = some s' ∧ s'.LogPrepared o
  | .exited _ => True
  | .starting _ | .waiting | .leaving _ => p.state.LogPrepared o

/-- A child that is never stopped is not left behind. -/
structure Process.Keeps (o : Options) (p : Process) : Prop where
  kept : p.ChildKept
  pending : p.sigchldPending = true → p.child = .terminated
  stopped : p.child ≠ .stopped
  through : p.GetsThrough o

/-- What must not happen: a failing call, a stopped child, a test without a directory. -/
def ProcessEvent.Harmless (o : Options) (e : ProcessEvent) : Prop :=
  e ≠ .fails ∧ e ≠ .childStops ∧ e.Reads (ConsoleLine.Prepared o)

theorem Process.GetsThrough.at_position (h : p.GetsThrough o) {pos : Position} (hpos : p.position = pos) :
    Process.GetsThrough o { p with position := pos } := by
  rw [← hpos]
  exact h

theorem Process.GetsThrough.withWatchdog (h : p.GetsThrough o) (w : Watchdog)
    (hstate : p'.state = p.state.withWatchdog w) (hpos : p'.position = p.position) :
    p'.GetsThrough o := by
  unfold Process.GetsThrough
  rw [hpos, hstate]
  cases hcase : p.position with
  | handling l actions blocks =>
    obtain ⟨s', hrest, hs'⟩ := h.at_position hcase
    obtain ⟨w', hw'⟩ := runRest_withWatchdog actions blocks p.state w
    exact ⟨s'.withWatchdog w', by rw [hw', hrest]; rfl, hs'⟩
  | exited ret => trivial
  | starting todo => exact h.at_position hcase
  | waiting => exact h.at_position hcase
  | leaving ret => exact h.at_position hcase

theorem alarmHandler_state (s : State) (accepted : Bool) :
    ∃ w, (alarmHandler s accepted).state = s.withWatchdog w := by
  unfold alarmHandler
  match s.timeoutStage with
  | 0 =>
    cases accepted with
    | true => exact ⟨⟨1, s.timeout, 30⟩, rfl⟩
    | false => exact ⟨⟨2, s.timeout, 10⟩, rfl⟩
  | 1 => exact ⟨⟨2, s.timeout, 10⟩, rfl⟩
  | n + 2 => exact ⟨⟨n + 3, s.timeout, 10⟩, rfl⟩

theorem Process.Keeps.killAndExit (h : p.Keeps o) (ret : ℕ) : (p.killAndExit ret).Keeps o where
  kept _ := .inr (by simp [Process.killAndExit])
  pending := h.pending
  stopped := h.stopped
  through := trivial

theorem Process.Keeps.goOn (h : p.Keeps o) (hthere : p'.position.isExited = false)
    (hpending : p'.sigchldPending = p.sigchldPending) (hchild : p'.child = p.child)
    (hthrough : p'.GetsThrough o) : p'.Keeps o where
  kept hgone := by
    rw [hthere] at hgone
    cases hgone
  pending := by
    rw [hpending, hchild]
    exact h.pending
  stopped := by
    rw [hchild]
    exact h.stopped
  through := hthrough

theorem Process.Keeps.setsUp (h : p.Keeps o) {x : Setup} {todo : List Setup}
    (hpos : p.position = .starting (x :: todo)) :
    Process.Keeps o { p.setUp o x with position := .ready todo } := by
  have hlog : p.state.LogPrepared o := h.through.at_position hpos
  have hsetUp : (p.setUp o x).state.LogPrepared o ∧ (p.setUp o x).sigchldPending = p.sigchldPending ∧
      (p.setUp o x).child = p.child := by
    cases x <;> exact ⟨hlog, rfl, rfl⟩
  refine h.goOn ?_ hsetUp.2.1 hsetUp.2.2 ?_
  · cases todo <;> rfl
  · cases todo <;> exact hsetUp.1

theorem Process.Keeps.step (h : p.Keeps o) (he : e.Harmless o) (hstep : p.step o e = some p') :
    p'.Keeps o := by
  have hbody : ∀ {l actions blocks}, p.position = .handling l actions blocks →
      ∃ s', runRest actions blocks p.state = some s' ∧ s'.LogPrepared o := h.through.at_position
  have hlog : p.position = .waiting → p.state.LogPrepared o := h.through.at_position
  cases Process.moves_of_step hstep with
  | setsUp x todo hpos => exact h.setsUp hpos
  | getline l hpos =>
    exact h.goOn rfl rfl rfl (runRest_of_prepared (hlog hpos) (he.2.2 l rfl))
  | getlineFails hpos => exact h.goOn rfl rfl rfl (hlog hpos)
  | acts l a actions blocks s hpos hop =>
    obtain ⟨s', hrest, hs'⟩ := hbody hpos
    rw [runRest_cons, hop, Option.bind_some] at hrest
    refine h.goOn rfl ?_ ?_ ⟨s', hrest, hs'⟩
    · cases a <;> rfl
    · cases a <;> rfl
  | dies l a actions blocks hpos hop =>
    obtain ⟨s', hrest, -⟩ := hbody hpos
    rw [runRest_cons, hop] at hrest
    cases hrest
  | skips l b blocks hpos hneeds hnolog =>
    obtain ⟨s', hrest, hs'⟩ := hbody hpos
    rw [runRest_skip hneeds hnolog] at hrest
    exact h.goOn rfl rfl rfl ⟨s', hrest, hs'⟩
  | enters l b blocks hpos hopen =>
    obtain ⟨s', hrest, hs'⟩ := hbody hpos
    rw [runRest_enter hopen] at hrest
    exact h.goOn rfl rfl rfl ⟨s', hrest, hs'⟩
  | loops l s hpos hs =>
    obtain ⟨s', hrest, hs'⟩ := hbody hpos
    obtain rfl := Option.some.inj hrest
    refine h.goOn rfl rfl rfl ?_
    rcases hs with rfl | rfl <;> exact hs'
  | breaks l ret hpos =>
    obtain ⟨s', hrest, hs'⟩ := hbody hpos
    obtain rfl := Option.some.inj hrest
    exact h.goOn rfl rfl rfl hs'
  | quits ret hpos => exact h.killAndExit ret
  | fails => exact absurd rfl he.1
  | alarm hthere harmed =>
    exact h.goOn hthere rfl rfl (h.through.withWatchdog ⟨p.state.timeoutStage, p.state.timeout, 0⟩ rfl rfl)
  | alarmHandled accepted hthere halarmed =>
    obtain ⟨w, hw⟩ := alarmHandler_state p.state accepted
    exact h.goOn hthere rfl rfl (h.through.withWatchdog w hw rfl)
  | term => exact h.killAndExit 1
  | sigchld hpending => exact ⟨fun _ => .inl (h.pending hpending), h.pending, h.stopped, trivial⟩
  | childStops => exact absurd rfl he.2.1
  | childContinues hstopped => exact absurd hstopped h.stopped
  | childTerminates =>
    exact ⟨fun _ => .inl rfl, fun _ => rfl, (fun hstopped => by cases hstopped), h.through⟩

end KtestCi.Supervisor
