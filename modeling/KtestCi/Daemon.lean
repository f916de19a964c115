import KtestCi.BatchOwed
import KtestCi.Refill

/-!
# The daemon

The main thread refills the queue while executors claim batches of it and run them on the
shared store. `desired_jobs` takes one snapshot of every commit it needs, at different times.
An executor reports the outcome of each job of a batch after the batch has returned.
-/

namespace KtestCi
namespace Daemon

open BatchRun (Batch ClaimedJob Stage)

/-- The queue with the main thread, the store, all batches claimed so far, and the snapshots
that the current call of `desired_jobs` has taken. -/
structure State where
  refill : Refill.State
  store : TestResultsStore
  runs : List (Batch × Stage)
  view : Text → Option TestResultsMap

def start (store : TestResultsStore) : State := ⟨Refill.initial, store, [], fun _ => none⟩

inductive Event where
  /-- A statement of `refill` other than `desired_jobs`. -/
  | refill (e : Refill.Event)
  /-- `desired_jobs` reads the results of a commit, unless it has them. -/
  | snapshot (commit : Text)
  /-- `desired_jobs` returns. -/
  | desire (w : World) (durations : Option (List Duration))
  /-- An executor claims the jobs with these ids and calls `run_ktest_job`. -/
  | claim (ids : List ℕ)
  /-- A batch makes a step. -/
  | move (i : ℕ) (e : BatchRun.Event)
  /-- The executor of a returned batch reports one of its jobs. -/
  | report (i id : ℕ)
  /-- The result directories change. -/
  | files (commits : TextMap (TextMap ResultDir))

def selected (choir : Choir Refill.Submission) (ids : List ℕ) : List (ChoirJob Refill.Submission) :=
  ids.filterMap (fun id => choir.jobs.find? (fun j => j.id = id))

def claimedJob (j : ChoirJob Refill.Submission) : ClaimedJob := ⟨j.id, j.payload.spec.params⟩

def batchOf (js : List (ChoirJob Refill.Submission)) : Option Batch :=
  match js.map claimedJob with
  | [] => none
  | head :: tail => some ⟨head, tail⟩

/-- The statements that `Event.refill` stands for. -/
def isStatement : Refill.Event → Bool
  | .desire _ _ _ | .claim _ | .finish _ => false
  | _ => true

/-- A claim takes distinct jobs with one batch key. -/
def Claimable (js : List (ChoirJob Refill.Submission)) (ids : List ℕ) : Prop :=
  ids.Nodup ∧ ∀ j ∈ js, ∀ j' ∈ js, j.payload.spec.batchKey = j'.payload.spec.batchKey

instance (js : List (ChoirJob Refill.Submission)) (ids : List ℕ) : Decidable (Claimable js ids) := by
  unfold Claimable
  infer_instance

/-- All commits of the matrix have been read. -/
def Viewed (view : Text → Option TestResultsMap) (specs : List TestSpec) : Prop :=
  ∀ spec ∈ specs, ∀ c ∈ spec.commits, (view c).isSome = true

instance (view : Text → Option TestResultsMap) (specs : List TestSpec) :
    Decidable (Viewed view specs) := by
  unfold Viewed
  infer_instance

def step (rc : CiConfig) (window : ℕ) (d : State) : Event → Option State
  | .refill e =>
    if isStatement e then
      (Refill.step rc window d.refill e).map (fun s => { d with refill := s, view := fun _ => none })
    else none
  | .snapshot commit => match d.refill.pc with
    | .retained =>
      let view := fun c => if c = commit then (d.view c).or (some (d.store.results c)) else d.view c
      some { d with view := view }
    | _ => none
  | .desire w durations =>
    if Viewed d.view (buildTestSpecs rc w) then
      (Refill.step rc window d.refill (.desire w durations (fun c => (d.view c).getD ∅))).map
        (fun s => { d with refill := s, view := fun _ => none })
    else none
  | .claim ids =>
    let js := selected d.refill.choir ids
    if Claimable js ids then
      match batchOf js, Refill.step rc window d.refill (.claim ids) with
      | some b, some s => some { d with refill := s, runs := d.runs ++ [(b, .start)] }
      | _, _ => none
    else none
  | .move i e => match d.runs[i]? with
    | none => none
    | some (b, st) => (BatchRun.step b d.store st e).map (fun next =>
        { d with store := next.1, runs := d.runs.set i (b, next.2) })
  | .report i id => match d.runs[i]? with
    | some (b, .returned _) =>
      if id ∈ b.jobs.map ClaimedJob.id then
        (Refill.step rc window d.refill (.finish id)).map (fun s => { d with refill := s })
      else none
    | _ => none
  | .files commits =>
    let o := { d.store.outputDir with commits := commits }
    some { d with store := { d.store with outputDir := o } }

inductive Advances (rc : CiConfig) (window : ℕ) (d : State) : Event → State → Prop
  | refill {s : Refill.State} (e : Refill.Event) (he : isStatement e = true)
      (hs : Refill.step rc window d.refill e = some s) :
      Advances rc window d (.refill e) { d with refill := s, view := fun _ => none }
  | snapshot (commit : Text) (hpc : d.refill.pc = .retained) :
      Advances rc window d (.snapshot commit) { d with
        view := fun c => if c = commit then (d.view c).or (some (d.store.results c)) else d.view c }
  | desire {s : Refill.State} (w : World) (durations : Option (List Duration))
      (hviewed : Viewed d.view (buildTestSpecs rc w))
      (hs : Refill.step rc window d.refill (.desire w durations (fun c => (d.view c).getD ∅)) = some s) :
      Advances rc window d (.desire w durations) { d with refill := s, view := fun _ => none }
  | claim {b : Batch} {choir : Choir Refill.Submission} (ids : List ℕ)
      (hclaimable : Claimable (selected d.refill.choir ids) ids)
      (hb : batchOf (selected d.refill.choir ids) = some b)
      (hclaim : d.refill.choir.claim ids = some choir) :
      Advances rc window d (.claim ids) { d with
        refill := { d.refill with choir := choir }
        runs := d.runs ++ [(b, .start)] }
  | move {b : Batch} {st st' : Stage} {store : TestResultsStore} (i : ℕ) (e : BatchRun.Event)
      (hi : d.runs[i]? = some (b, st)) (hm : BatchRun.Moves b d.store st e store st') :
      Advances rc window d (.move i e) { d with store := store, runs := d.runs.set i (b, st') }
  | report {b : Batch} {result : Option BatchRun.TaskError} {choir : Choir Refill.Submission} (i id : ℕ)
      (hi : d.runs[i]? = some (b, .returned result)) (hid : id ∈ b.jobs.map ClaimedJob.id)
      (hfinish : d.refill.choir.finish id = some choir) :
      Advances rc window d (.report i id) { d with refill := { d.refill with choir := choir } }
  | files (commits : TextMap (TextMap ResultDir)) :
      Advances rc window d (.files commits) { d with
        store := { d.store with outputDir := { d.store.outputDir with commits := commits } } }

theorem advances_of_step {rc : CiConfig} {window : ℕ} {d d' : State} {e : Event}
    (hstep : step rc window d e = some d') : Advances rc window d e d' := by
  cases e with
  | refill e =>
    simp only [step] at hstep
    split_ifs at hstep with hstatement
    obtain ⟨s, hs, rfl⟩ := Option.map_eq_some_iff.mp hstep
    exact .refill e hstatement hs
  | snapshot commit =>
    simp only [step] at hstep
    split at hstep
    next hpc => exact Option.some.inj hstep ▸ .snapshot commit hpc
    next => simp at hstep
  | desire w durations =>
    simp only [step] at hstep
    split_ifs at hstep with hviewed
    obtain ⟨s, hs, rfl⟩ := Option.map_eq_some_iff.mp hstep
    exact .desire w durations hviewed hs
  | claim ids =>
    simp only [step] at hstep
    split_ifs at hstep with hclaimable
    split at hstep
    next b s hb hs =>
      obtain rfl := Option.some.inj hstep
      obtain ⟨choir, hclaim, rfl⟩ := Option.map_eq_some_iff.mp hs
      exact .claim ids hclaimable hb hclaim
    next => simp at hstep
  | move i e =>
    simp only [step] at hstep
    split at hstep
    next => simp at hstep
    next b st hi =>
      obtain ⟨⟨store, st'⟩, hmove, rfl⟩ := Option.map_eq_some_iff.mp hstep
      exact .move i e hi (BatchRun.moves_of_step b hmove)
  | report i id =>
    simp only [step] at hstep
    split at hstep
    next b result hi =>
      split_ifs at hstep with hid
      obtain ⟨s, hs, rfl⟩ := Option.map_eq_some_iff.mp hstep
      obtain ⟨choir, hfinish, rfl⟩ := Option.map_eq_some_iff.mp hs
      exact .report i id hi hid hfinish
    next => simp at hstep
  | files commits => exact Option.some.inj hstep ▸ .files commits

/-- A batch whose `run_ktest_job` has not returned. -/
def Active (r : Batch × Stage) : Prop := ∀ result, r.2 ≠ .returned result

end Daemon
end KtestCi
