import KtestCi.SupervisorOps
import KtestCi.EventRuns

/-!
# The supervisor and its child

The child writes lines into the pipe and exits; the supervisor reads them one at a time and
never sees the end of the pipe, of which it holds a write end itself. The kernel delivers
`SIGCHLD` at any moment after the exit, also between two operations of the loop body, and the
handler ends the supervisor on the spot. What is then still in the pipe, or in hand, is lost.
-/

namespace KtestCi.Supervisor
open EventRuns

/-- Where the supervisor stands: in `getline`, in the loop body with the operations still to
come, behind the loop, or gone. -/
inductive Stand where
  | waiting
  | handling (l : ConsoleLine) (todo : List Operation)
  | leaving (ret : ℕ)
  | exited (ret : ℕ)

/-- The supervisor, its child and the lines between them, with a record of the lines that were
written and of those whose loop body is through. -/
structure Session where
  state : State
  stand : Stand
  /-- Written and not read yet. -/
  pipe : List ConsoleLine
  childRuns : Bool
  written : List ConsoleLine
  processed : List ConsoleLine

def Session.start (o : Options) (files : Files) : Session :=
  ⟨initial o files, .waiting, [], true, [], []⟩

inductive SessionEvent where
  | writes (l : ConsoleLine)
  | childExits
  | getline
  /-- The next operation of the loop body, or its end. -/
  | advances
  /-- `kill` and `exit` behind the loop. -/
  | quits
  | sigchld

def Session.advance (o : Options) (p : Session) (l : ConsoleLine) : List Operation → Session
  | op :: todo => match op p.state with
    | some s => { p with state := s, stand := .handling l todo }
    | none => { p with stand := .exited 1 }
  | [] => match afterBody o l p.state with
    | .next s => { p with state := s, stand := .waiting, processed := p.processed ++ [l] }
    | .leaves s ret => { p with state := s, stand := .leaving ret, processed := p.processed ++ [l] }
    | .dies => { p with stand := .exited 1 }

/-- `child_handler` exits wherever it finds the supervisor. -/
def Session.childHandler (p : Session) : Session := { p with stand := .exited 1 }

def Session.step (o : Options) (p : Session) : SessionEvent → Option Session
  | .writes l => match p.childRuns, p.stand with
    | false, _ | _, .exited _ => none
    | true, _ => some { p with pipe := p.pipe ++ [l], written := p.written ++ [l] }
  | .childExits => if p.childRuns then some { p with childRuns := false } else none
  | .getline => match p.stand, p.pipe with
    | .waiting, l :: pipe => some { p with stand := .handling l (bodyOps o l), pipe := pipe }
    | _, _ => none
  | .advances => match p.stand with
    | .handling l todo => some (p.advance o l todo)
    | _ => none
  | .quits => match p.stand with
    | .leaving ret => some { p with stand := .exited ret }
    | _ => none
  | .sigchld => match p.childRuns, p.stand with
    | true, _ | _, .exited _ => none
    | false, _ => some p.childHandler

/-- Everything that can happen to a session. -/
inductive Session.Moves (o : Options) (p : Session) : SessionEvent → Session → Prop
  | writes (l : ConsoleLine) (hruns : p.childRuns = true) (hthere : ∀ ret, p.stand ≠ .exited ret) :
      Moves o p (.writes l) { p with pipe := p.pipe ++ [l], written := p.written ++ [l] }
  | childExits (hruns : p.childRuns = true) : Moves o p .childExits { p with childRuns := false }
  | getline (l : ConsoleLine) (pipe : List ConsoleLine) (hstand : p.stand = .waiting)
      (hpipe : p.pipe = l :: pipe) :
      Moves o p .getline { p with stand := .handling l (bodyOps o l), pipe := pipe }
  | advances (l : ConsoleLine) (todo : List Operation) (hstand : p.stand = .handling l todo) :
      Moves o p .advances (p.advance o l todo)
  | quits (ret : ℕ) (hstand : p.stand = .leaving ret) : Moves o p .quits { p with stand := .exited ret }
  | sigchld (hruns : p.childRuns = false) (hthere : ∀ ret, p.stand ≠ .exited ret) :
      Moves o p .sigchld p.childHandler

theorem Session.moves_of_step {o : Options} {p p' : Session} {e : SessionEvent}
    (h : p.step o e = some p') : p.Moves o e p' := by
  cases e with
  | writes l =>
    simp only [Session.step] at h
    split at h
    · cases h
    · cases h
    next hruns hthere =>
      obtain rfl := Option.some.inj h
      exact .writes l hruns (fun ret hstand => hthere ret hstand)
  | childExits =>
    simp only [Session.step] at h
    split_ifs at h with hruns
    obtain rfl := Option.some.inj h
    exact .childExits hruns
  | getline =>
    simp only [Session.step] at h
    split at h
    next l pipe hstand hpipe =>
      obtain rfl := Option.some.inj h
      exact .getline l pipe hstand hpipe
    next => cases h
  | advances =>
    simp only [Session.step] at h
    split at h
    next l todo hstand =>
      obtain rfl := Option.some.inj h
      exact .advances l todo hstand
    next => cases h
  | quits =>
    simp only [Session.step] at h
    split at h
    next ret hstand =>
      obtain rfl := Option.some.inj h
      exact .quits ret hstand
    next => cases h
  | sigchld =>
    simp only [Session.step] at h
    split at h
    · cases h
    · cases h
    next hruns hthere =>
      obtain rfl := Option.some.inj h
      exact .sigchld hruns (fun ret hstand => hthere ret hstand)

/-- The handler finds nothing to lose: the supervisor waits for a line and the pipe is empty,
or it is behind the loop. -/
def Session.idle (p : Session) : Bool :=
  match p.stand with
  | .waiting => p.pipe.isEmpty
  | .handling _ _ => false
  | .leaving _ | .exited _ => true

/-- The condition on the delivery of `SIGCHLD`. -/
def Session.deliveredIdle (p : Session) : SessionEvent → Bool
  | .sigchld => p.idle
  | _ => true

/-- Every line the child wrote, up to one on which the supervisor stops, has been processed and
is in the full log; the status of a test is that of its last run among these lines, and a
`PASSED` marker that ends it stands in the status file. -/
structure NothingLost (o : Options) (p : Session) : Prop where
  processed : p.processed = uptoStop o p.written
  log : LogOf (uptoStop o p.written) p.state.logfile
  status : ∀ t b seg rest, LastRun (uptoStop o p.written) t b seg rest →
    p.state.files t .status = some (recordedStatus seg)
  passed : ∀ t b seg rest e, LastRun (uptoStop o p.written) t b seg rest →
    seg.find? ConsoleLine.ending = some e → "========= PASSED ".toList <+: strim e.raw →
    p.state.files t .status = some (strim e.raw ++ ['\n'])

variable {o : Options} {files : Files} {lines : List ConsoleLine} {l : ConsoleLine}
variable {p p' : Session} {e : SessionEvent}

def Through (o : Options) (lines : List ConsoleLine) : Prop :=
  ∀ l ∈ lines, l.Prepared o ∧ stops o (strim l.raw) = none

/-- A session whose supervisor is still there: the lines are processed in the order in which
they were written, and the records are those of the processed lines. -/
inductive Live (o : Options) (files : Files) (p : Session) : Prop where
  | waiting (stand : p.stand = .waiting) (flow : p.written = p.processed ++ p.pipe)
      (through : Through o p.processed) (records : Records files p.processed p.state)
  | handling {l : ConsoleLine} {todo : List Operation} {s : State} (stand : p.stand = .handling l todo)
      (flow : p.written = p.processed ++ l :: p.pipe) (through : Through o p.processed)
      (records : Records files p.processed s)
      (rest : runOps todo p.state = runOps (bodyOps o l) s)
  | leaving {l : ConsoleLine} {pre : List ConsoleLine} {ret : ℕ} (stand : p.stand = .leaving ret)
      (flow : p.written = pre ++ l :: p.pipe) (done : p.processed = pre ++ [l])
      (through : Through o pre) (stop : stops o (strim l.raw) = some ret)
      (prepared : l.Prepared o) (records : Records files p.processed p.state)

theorem live_start (o : Options) (files : Files) : Live o files (Session.start o files) :=
  .waiting rfl rfl (by simp [Session.start, Through]) (records_initial o files)

theorem Through.goesOn (h : Through o lines) : ∀ l ∈ lines, stops o (strim l.raw) = none :=
  fun l hl => (h l hl).2

theorem Through.concat (h : Through o lines) (hl : l.Prepared o) (hs : stops o (strim l.raw) = none) :
    Through o (lines ++ [l]) := by
  intro l' hl'
  rcases List.mem_append.mp hl' with hl' | hl'
  · exact h l' hl'
  · rw [List.mem_singleton.mp hl']
    exact ⟨hl, hs⟩

theorem nothingLost_of_records (h : p.processed = uptoStop o p.written)
    (hrec : Records files p.processed p.state) : NothingLost o p := by
  have hstatus : ∀ t b seg rest, LastRun (uptoStop o p.written) t b seg rest →
      p.state.files t .status = some (recordedStatus seg) := by
    intro t b seg rest hrun
    rw [← h] at hrun
    have hstarted : ∃ l ∈ p.processed, l.starting = some t := by
      obtain ⟨pre, hpre⟩ := hrun.split
      exact ⟨b, by simp [hpre], hrun.starts⟩
    obtain ⟨b', seg', rest', hrun', hholds, -⟩ := hrec.runs t hstarted
    rw [hholds.1, hrun.seg_unique hrun']
  refine ⟨h, h ▸ hrec.full, hstatus, ?_⟩
  intro t b seg rest e hrun hfind _
  rw [hstatus t b seg rest hrun]
  simp [recordedStatus, hfind, e.strim_raw]

theorem not_nothingLost_of_flow {rest : List ConsoleLine} (hthrough : Through o p.processed)
    (hflow : p.written = p.processed ++ l :: rest) : ¬ NothingLost o p := by
  intro h
  have hall := h.processed
  rw [hflow, uptoStop_append hthrough.goesOn] at hall
  have hnil : uptoStop o (l :: rest) = [] := by simpa using hall.symm
  have hmem : l ∈ uptoStop o (l :: rest) := mem_uptoStop_cons l rest
  simp [hnil] at hmem

/-- The session is over, and nothing is lost exactly if all tests had their directories and
the handler, if it ran, found the supervisor idle. -/
def OverWith (o : Options) (p : Session) (idle : Bool) : Prop :=
  (∃ ret, p.stand = .exited ret) ∧
    (NothingLost o p ↔ (∀ l ∈ uptoStop o p.written, l.Prepared o) ∧ idle = true)

theorem overWith_of_records {idle : Bool} {ret : ℕ} (hstand : p.stand = .exited ret)
    (hall : p.processed = uptoStop o p.written) (hrec : Records files p.processed p.state)
    (hprep : ∀ l ∈ p.processed, l.Prepared o) (hidle : idle = true) : OverWith o p idle :=
  ⟨⟨ret, hstand⟩, fun _ => ⟨hall ▸ hprep, hidle⟩, fun _ => nothingLost_of_records hall hrec⟩

theorem overWith_of_cut {idle : Bool} {ret : ℕ} {rest : List ConsoleLine}
    (hstand : p.stand = .exited ret) (hthrough : Through o p.processed)
    (hflow : p.written = p.processed ++ l :: rest) (hwhy : ¬ l.Prepared o ∨ idle = false) :
    OverWith o p idle := by
  refine ⟨⟨ret, hstand⟩, fun h => absurd h (not_nothingLost_of_flow hthrough hflow), ?_⟩
  rintro ⟨hprep, hidle⟩
  rcases hwhy with hwhy | hwhy
  · refine absurd (hprep l ?_) hwhy
    rw [hflow, uptoStop_append hthrough.goesOn]
    exact List.mem_append_right _ (mem_uptoStop_cons l rest)
  · simp [hidle] at hwhy

namespace Live

theorem writes (h : Live o files p) (l : ConsoleLine) :
    Live o files { p with pipe := p.pipe ++ [l], written := p.written ++ [l] } := by
  cases h with
  | waiting stand flow through records =>
    exact .waiting stand (by simp [flow]) through records
  | handling stand flow through records rest =>
    exact .handling stand (by simp [flow]) through records rest
  | leaving stand flow done through stop prepared records =>
    exact .leaving stand (by simp [flow]) done through stop prepared records

theorem childExits (h : Live o files p) : Live o files { p with childRuns := false } := by
  cases h with
  | waiting stand flow through records => exact .waiting stand flow through records
  | handling stand flow through records rest => exact .handling stand flow through records rest
  | leaving stand flow done through stop prepared records =>
    exact .leaving stand flow done through stop prepared records

theorem getline {pipe : List ConsoleLine} (h : Live o files p) (hstand : p.stand = .waiting)
    (hpipe : p.pipe = l :: pipe) :
    Live o files { p with stand := .handling l (bodyOps o l), pipe := pipe } := by
  cases h with
  | waiting _ flow through records => exact .handling rfl (hpipe ▸ flow) through records rfl
  | handling stand => simp [hstand] at stand
  | leaving stand => simp [hstand] at stand

theorem ends_body (hflow : p.written = p.processed ++ l :: p.pipe) (hthrough : Through o p.processed)
    (hrec : Records files (p.processed ++ [l]) p.state) (hl : l.Prepared o) :
    Live o files (p.advance o l []) := by
  unfold Session.advance afterBody
  cases hstop : stops o (strim l.raw) with
  | some ret => exact .leaving rfl hflow rfl hthrough hstop hl hrec
  | none =>
    refine .waiting rfl (by simpa using hflow) (hthrough.concat hl hstop) (hrec.congr ?_)
    dsimp only
    split_ifs
    · exact ⟨rfl, rfl, rfl, rfl⟩
    · exact ⟨rfl, rfl, rfl, rfl⟩

theorem advances {todo : List Operation} (h : Live o files p) (hstand : p.stand = .handling l todo) :
    Live o files (p.advance o l todo) ∨ OverWith o (p.advance o l todo) true := by
  cases h with
  | waiting stand => simp [hstand] at stand
  | leaving stand => simp [hstand] at stand
  | @handling l' todo' s stand flow through records rest =>
    obtain ⟨rfl, rfl⟩ : l = l' ∧ todo = todo' := by simpa [hstand] using stand
    have hprep : ∀ l ∈ p.processed, l.Prepared o := fun l hl => (through l hl).1
    cases todo with
    | nil =>
      have hl : l.Prepared o := by
        by_contra hl
        simp [runOps_bodyOps_of_not_prepared hl] at rest
      obtain ⟨s', hbody, hrec⟩ := records.runOps_bodyOps hprep hl
      obtain rfl : p.state = s' := Option.some.inj (rest.trans hbody)
      exact .inl (ends_body flow through hrec hl)
    | cons op todo =>
      cases hop : op p.state with
      | some s' =>
        left
        simp only [Session.advance, hop]
        exact .handling rfl flow through records (by simpa [hop] using rest)
      | none =>
        right
        have hl : ¬ l.Prepared o := by
          intro hl
          obtain ⟨s', hbody, -⟩ := records.runOps_bodyOps hprep hl
          simp [hop, hbody] at rest
        simp only [Session.advance, hop]
        exact overWith_of_cut rfl through flow (.inl hl)

theorem exits_leaving {ret ret' : ℕ} (h : Live o files p) (hstand : p.stand = .leaving ret) :
    OverWith o { p with stand := .exited ret' } true := by
  cases h with
  | waiting stand => simp [hstand] at stand
  | handling stand => simp [hstand] at stand
  | @leaving l pre _ stand flow done through stop prepared records =>
    have hall : p.processed = uptoStop o p.written := by
      rw [flow, uptoStop_append through.goesOn, done]
      simp [uptoStop, stop]
    refine overWith_of_records rfl hall records ?_ rfl
    intro l' hl'
    rw [done] at hl'
    rcases List.mem_append.mp hl' with hl' | hl'
    · exact (through l' hl').1
    · rw [List.mem_singleton.mp hl']
      exact prepared

theorem childHandler (h : Live o files p) : OverWith o p.childHandler p.idle := by
  cases h with
  | waiting stand flow through records =>
    cases hpipe : p.pipe with
    | nil =>
      have hall : p.processed = uptoStop o p.written := by
        rw [flow, uptoStop_append through.goesOn, hpipe]
        simp [uptoStop]
      exact overWith_of_records rfl hall records (fun l hl => (through l hl).1)
        (by simp [Session.idle, stand, hpipe])
    | cons l pipe =>
      exact overWith_of_cut rfl through (hpipe ▸ flow) (.inr (by simp [Session.idle, stand, hpipe]))
  | handling stand flow through records rest =>
    exact overWith_of_cut rfl through flow (.inr (by simp [Session.idle, stand]))
  | leaving stand flow done through stop prepared records =>
    have hidle : p.idle = true := by simp [Session.idle, stand]
    rw [hidle]
    exact exits_leaving (.leaving stand flow done through stop prepared records) stand

theorem step (h : Live o files p) (hstep : p.step o e = some p') :
    (Live o files p' ∧ p.deliveredIdle e = true) ∨ OverWith o p' (p.deliveredIdle e) := by
  cases Session.moves_of_step hstep with
  | writes l => exact .inl ⟨h.writes l, rfl⟩
  | childExits => exact .inl ⟨h.childExits, rfl⟩
  | getline l pipe hstand hpipe => exact .inl ⟨h.getline hstand hpipe, rfl⟩
  | advances l todo hstand => exact (h.advances hstand).imp (fun hlive => ⟨hlive, rfl⟩) id
  | quits ret hstand => exact .inr (h.exits_leaving hstand)
  | sigchld => exact .inr h.childHandler

end Live

theorem step_of_exited {ret : ℕ} (h : p.stand = .exited ret) (hstep : p.step o e = some p') :
    p' = { p with childRuns := p'.childRuns } ∧ p.deliveredIdle e = true := by
  cases Session.moves_of_step hstep with
  | childExits => exact ⟨rfl, rfl⟩
  | writes l _ hthere => exact absurd h (hthere ret)
  | sigchld _ hthere => exact absurd h (hthere ret)
  | getline l pipe hstand => simp [hstand] at h
  | advances l todo hstand => simp [hstand] at h
  | quits ret' hstand => simp [hstand] at h

theorem OverWith.congr_childRuns {idle : Bool} (h : OverWith o p idle) (b : Bool) :
    OverWith o { p with childRuns := b } idle := by
  obtain ⟨hexit, hiff⟩ := h
  refine ⟨hexit, ⟨fun hn => hiff.mp ⟨hn.1, hn.2, hn.3, hn.4⟩, fun hc => ?_⟩⟩
  have hn := hiff.mpr hc
  exact ⟨hn.1, hn.2, hn.3, hn.4⟩

theorem OverWith.run {idle : Bool} {es : List SessionEvent} {q : Session} (h : OverWith o p idle)
    (hrun : EventRuns.run (Session.step o) p es = some q) :
    OverWith o q idle ∧ along Session.deliveredIdle (Session.step o) p es = true := by
  induction es generalizing p with
  | nil => exact ⟨Option.some.inj hrun ▸ h, rfl⟩
  | cons e es ih =>
    obtain ⟨p', hstep, hrun⟩ := run_cons_eq_some_iff.mp hrun
    obtain ⟨ret, hstand⟩ := h.1
    obtain ⟨hp', hidle⟩ := step_of_exited hstand hstep
    have hover : OverWith o p' idle := by
      rw [hp']
      exact h.congr_childRuns _
    obtain ⟨hq, halong⟩ := ih hover hrun
    exact ⟨hq, by rw [along_cons hstep, hidle, halong]; rfl⟩

/-- From any state of the read loop to the end of the supervisor. -/
theorem Live.run {es : List SessionEvent} {q : Session} {ret : ℕ} (h : Live o files p)
    (hrun : EventRuns.run (Session.step o) p es = some q) (hexit : q.stand = .exited ret) :
    OverWith o q (along Session.deliveredIdle (Session.step o) p es) := by
  induction es generalizing p with
  | nil =>
    obtain rfl := Option.some.inj hrun
    cases h with
    | waiting stand => simp [hexit] at stand
    | handling stand => simp [hexit] at stand
    | leaving stand => simp [hexit] at stand
  | cons e es ih =>
    obtain ⟨p', hstep, hrun⟩ := run_cons_eq_some_iff.mp hrun
    rw [along_cons hstep]
    rcases h.step hstep with ⟨hlive, hidle⟩ | hover
    · rw [hidle, Bool.true_and]
      exact ih hlive hrun
    · obtain ⟨hq, halong⟩ := hover.run hrun
      rw [halong, Bool.and_true]
      exact hq

/-- When the supervisor has exited, nothing the child wrote is lost exactly if every test the
child started has its directory and `SIGCHLD` came only when no line was left to process. -/
theorem nothingLost_iff (o : Options) (files : Files) (es : List SessionEvent) (q : Session) (ret : ℕ)
    (hrun : EventRuns.run (Session.step o) (Session.start o files) es = some q)
    (hexit : q.stand = .exited ret) :
    NothingLost o q ↔ (∀ l ∈ uptoStop o q.written, l.Prepared o) ∧
      along Session.deliveredIdle (Session.step o) (Session.start o files) es = true :=
  ((live_start o files).run hrun hexit).2

def quotaOptions : Options := ⟨true, true, 1200, fun t => t = "quota".toList⟩

def quotaStarts : ConsoleLine := ⟨"========= TEST   quota\n".toList, 1, 1, false, [], []⟩

def quotaPasses : ConsoleLine := ⟨"========= PASSED quota in 3s\n".toList, 4, 4, false, [], []⟩

def quotaEvents : List SessionEvent :=
  [.writes quotaStarts, .getline] ++ List.replicate 12 .advances ++ [.writes quotaPasses, .childExits]

/-- The signal comes while the end marker is in the pipe. -/
theorem passed_marker_lost : ∃ q, EventRuns.run (Session.step quotaOptions)
      (Session.start quotaOptions (fun _ _ => none)) (quotaEvents ++ [.sigchld]) = some q ∧
    q.stand = .exited 1 ∧ q.written = [quotaStarts, quotaPasses] ∧
    q.state.files "quota".toList .status = some "TEST FAILED\n".toList ∧
    ¬ NothingLost quotaOptions q := by
  refine ⟨_, rfl, rfl, rfl, by decide +kernel, ?_⟩
  intro h
  have hlength := congrArg List.length h.processed
  revert hlength
  decide +kernel

/-- The signal comes after the end marker has been processed. -/
theorem nothingLost_quota : ∃ q, EventRuns.run (Session.step quotaOptions)
      (Session.start quotaOptions (fun _ _ => none))
      (quotaEvents ++ .getline :: List.replicate 9 .advances ++ [.sigchld]) = some q ∧
    q.stand = .exited 1 ∧ NothingLost quotaOptions q := by
  obtain ⟨q, hrun, hstand, hwritten⟩ : ∃ q, EventRuns.run (Session.step quotaOptions)
      (Session.start quotaOptions (fun _ _ => none))
      (quotaEvents ++ .getline :: List.replicate 9 .advances ++ [.sigchld]) = some q ∧
      q.stand = .exited 1 ∧ uptoStop quotaOptions q.written = [quotaStarts, quotaPasses] :=
    ⟨_, rfl, rfl, rfl⟩
  have hstarts : quotaStarts.starting = some "quota".toList := by decide +kernel
  have hpasses : quotaPasses.starting = none := by decide +kernel
  refine ⟨q, hrun, hstand, (nothingLost_iff _ _ _ _ _ hrun hstand).mpr ⟨?_, by decide +kernel⟩⟩
  rw [hwritten]
  intro l hl t ht
  rcases List.mem_cons.mp hl with rfl | hl
  · obtain rfl := Option.some.inj (hstarts.symm.trans ht)
    simp [quotaOptions]
  · obtain rfl := List.mem_singleton.mp hl
    simp [hpasses] at ht

end KtestCi.Supervisor
