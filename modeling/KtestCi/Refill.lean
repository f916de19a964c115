import KtestCi.Choir
import KtestCi.DaemonJobs
import KtestCi.DesiredJobsOrder
import KtestCi.EventRuns

/-!
# Refilling the job window

`refill` statement by statement, with executors claiming and finishing jobs between any two
of its statements. The invariant is that the map from job keys to ids knows every job that
is in the queue: dropping jobs cannot break it, and a key that the map does not know may be
submitted.
-/

namespace KtestCi
namespace Refill

/-- A submitted job with the key it was submitted for. -/
structure Submission where
  key : JobKey
  spec : JobSpec

inductive Pc where
  | idle
  | removed
  | listed (existing : List ℕ)
  | retained
  | submitting (todo : List Job)
  | inserting (job : Job) (id : ℕ) (todo : List Job)

structure State where
  choir : Choir Submission
  jobMap : JobKey → Option ℕ
  pc : Pc

def initial : State := ⟨⟨[], []⟩, fun _ => none, .idle⟩

inductive Event where
  /-- `choir.remove`, which starts a pass. -/
  | remove (drop : ℕ → Bool)
  /-- `choir.job_ids`. -/
  | list
  /-- `job_map.retain`. -/
  | retain
  /-- `desired_jobs`, on the repositories, durations and results of that time. -/
  | desire (w : World) (durations : Option (List Duration)) (results : Text → TestResultsMap)
  /-- The next desired job is tracked already. -/
  | tracked
  /-- `choir.submit` of the next desired job. -/
  | submit (id : ℕ)
  /-- `job_map.insert`. -/
  | insert
  /-- The end of the pass. -/
  | done
  | claim (ids : List ℕ)
  | finish (id : ℕ)

/-- `job_map.retain` against the ids listed before. -/
def retainExisting (jobMap : JobKey → Option ℕ) (existing : List ℕ) : JobKey → Option ℕ :=
  fun k => (jobMap k).filter (fun id => id ∈ existing)

def insertJob (jobMap : JobKey → Option ℕ) (key : JobKey) (id : ℕ) : JobKey → Option ℕ :=
  fun k => if k = key then some id else jobMap k

def step (rc : CiConfig) (window : ℕ) (s : State) : Event → Option State
  | .remove drop => match s.pc with
    | .idle => some { s with choir := s.choir.remove drop, pc := .removed }
    | _ => none
  | .list => match s.pc with
    | .removed => some { s with pc := .listed s.choir.jobIds }
    | _ => none
  | .retain => match s.pc with
    | .listed existing => some { s with jobMap := retainExisting s.jobMap existing, pc := .retained }
    | _ => none
  | .desire w durations results => match s.pc with
    | .retained => some { s with pc := .submitting (desiredJobs rc w durations results window) }
    | _ => none
  | .tracked => match s.pc with
    | .submitting (job :: todo) =>
      if (s.jobMap job.key).isSome then some { s with pc := .submitting todo } else none
    | _ => none
  | .submit id => match s.pc with
    | .submitting (job :: todo) =>
      if (s.jobMap job.key).isSome then none
      else (s.choir.submit id ⟨job.key, makeJobSpec rc job⟩).map (fun choir =>
        { s with choir := choir, pc := .inserting job id todo })
    | _ => none
  | .insert => match s.pc with
    | .inserting job id todo =>
      some { s with jobMap := insertJob s.jobMap job.key id, pc := .submitting todo }
    | _ => none
  | .done => match s.pc with
    | .submitting [] => some { s with pc := .idle }
    | _ => none
  | .claim ids => (s.choir.claim ids).map (fun choir => { s with choir := choir })
  | .finish id => (s.choir.finish id).map (fun choir => { s with choir := choir })

inductive Moves (rc : CiConfig) (window : ℕ) (s : State) : Event → State → Prop
  | remove (drop : ℕ → Bool) (hpc : s.pc = .idle) :
      Moves rc window s (.remove drop) { s with choir := s.choir.remove drop, pc := .removed }
  | list (hpc : s.pc = .removed) : Moves rc window s .list { s with pc := .listed s.choir.jobIds }
  | retain {existing : List ℕ} (hpc : s.pc = .listed existing) :
      Moves rc window s .retain { s with jobMap := retainExisting s.jobMap existing, pc := .retained }
  | desire (w : World) (durations : Option (List Duration)) (results : Text → TestResultsMap)
      (hpc : s.pc = .retained) :
      Moves rc window s (.desire w durations results)
        { s with pc := .submitting (desiredJobs rc w durations results window) }
  | tracked {job : Job} {todo : List Job} (hpc : s.pc = .submitting (job :: todo))
      (hjob : (s.jobMap job.key).isSome = true) :
      Moves rc window s .tracked { s with pc := .submitting todo }
  | submit {job : Job} {todo : List Job} {choir : Choir Submission} (id : ℕ)
      (hpc : s.pc = .submitting (job :: todo)) (hnew : s.jobMap job.key = none)
      (hsubmit : Choir.Submits s.choir choir id ⟨job.key, makeJobSpec rc job⟩) :
      Moves rc window s (.submit id) { s with choir := choir, pc := .inserting job id todo }
  | insert {job : Job} {id : ℕ} {todo : List Job} (hpc : s.pc = .inserting job id todo) :
      Moves rc window s .insert
        { s with jobMap := insertJob s.jobMap job.key id, pc := .submitting todo }
  | done (hpc : s.pc = .submitting []) : Moves rc window s .done { s with pc := .idle }
  | claim {choir : Choir Submission} (ids : List ℕ) (hclaim : s.choir.claim ids = some choir) :
      Moves rc window s (.claim ids) { s with choir := choir }
  | finish {choir : Choir Submission} (id : ℕ) (hfinish : s.choir.finish id = some choir) :
      Moves rc window s (.finish id) { s with choir := choir }

theorem moves_of_step {rc : CiConfig} {window : ℕ} {s s' : State} {e : Event}
    (hstep : step rc window s e = some s') : Moves rc window s e s' := by
  cases e with
  | remove drop =>
    simp only [step] at hstep
    split at hstep
    next hpc => exact Option.some.inj hstep ▸ .remove drop hpc
    next => simp at hstep
  | list =>
    simp only [step] at hstep
    split at hstep
    next hpc => exact Option.some.inj hstep ▸ .list hpc
    next => simp at hstep
  | retain =>
    simp only [step] at hstep
    split at hstep
    next existing hpc => exact Option.some.inj hstep ▸ .retain hpc
    next => simp at hstep
  | desire w durations results =>
    simp only [step] at hstep
    split at hstep
    next hpc => exact Option.some.inj hstep ▸ .desire w durations results hpc
    next => simp at hstep
  | tracked =>
    simp only [step] at hstep
    split at hstep
    next hpc =>
      split_ifs at hstep with hjob
      exact Option.some.inj hstep ▸ .tracked hpc hjob
    next => simp at hstep
  | submit id =>
    simp only [step] at hstep
    split at hstep
    next hpc =>
      split_ifs at hstep with hnew
      obtain ⟨choir, hsubmit, rfl⟩ := Option.map_eq_some_iff.mp hstep
      exact .submit id hpc (by simpa using hnew) (Choir.submits_of_submit hsubmit)
    next => simp at hstep
  | insert =>
    simp only [step] at hstep
    split at hstep
    next hpc => exact Option.some.inj hstep ▸ .insert hpc
    next => simp at hstep
  | done =>
    simp only [step] at hstep
    split at hstep
    next hpc => exact Option.some.inj hstep ▸ .done hpc
    next => simp at hstep
  | claim ids =>
    obtain ⟨choir, hclaim, rfl⟩ := Option.map_eq_some_iff.mp hstep
    exact .claim ids hclaim
  | finish id =>
    obtain ⟨choir, hfinish, rfl⟩ := Option.map_eq_some_iff.mp hstep
    exact .finish id hfinish

/-- The map knows this job, or the job is about to be entered. -/
def State.Knows (s : State) (j : ChoirJob Submission) : Prop :=
  s.jobMap j.payload.key = some j.id ∨
    ∃ job todo, s.pc = .inserting job j.id todo ∧ j.payload.key = job.key

structure Tracked (s : State) : Prop where
  wellFormed : s.choir.WellFormed
  known : ∀ j ∈ s.choir.jobs, s.Knows j
  listed : ∀ existing, s.pc = .listed existing → ∀ id ∈ s.choir.jobIds, id ∈ existing
  untracked : ∀ job id todo, s.pc = .inserting job id todo → s.jobMap job.key = none

theorem initial_tracked : Tracked initial where
  wellFormed := ⟨by simp [initial, Choir.jobIds], by simp [initial, Choir.jobIds]⟩
  known := by simp [initial]
  listed := by simp [initial]
  untracked := by simp [initial]

theorem Tracked.shrinks {s : State} {ch : Choir Submission} (h : Tracked s)
    (hch : Choir.Shrinks s.choir ch) : Tracked { s with choir := ch } where
  wellFormed := hch.wellFormed h.wellFormed
  known := by
    intro j hj
    obtain ⟨j₀, hj₀, hid, hpayload⟩ := hch.exists_job hj
    have hknown := h.known j₀ hj₀
    unfold State.Knows at hknown ⊢
    rwa [hid, hpayload] at hknown
  listed := fun existing hpc id hid => h.listed existing hpc id (hch.jobIds.subset hid)
  untracked := h.untracked

theorem Tracked.jobMap_eq {s : State} (h : Tracked s) (hpc : ∀ job id todo, s.pc ≠ .inserting job id todo)
    {j : ChoirJob Submission} (hj : j ∈ s.choir.jobs) : s.jobMap j.payload.key = some j.id := by
  rcases h.known j hj with hmap | ⟨job, todo, hins, -⟩
  · exact hmap
  · exact absurd hins (hpc _ _ _)

theorem Tracked.goto {s : State} {pc : Pc} (h : Tracked s)
    (hpc : ∀ job id todo, s.pc ≠ .inserting job id todo)
    (hins : ∀ job id todo, pc ≠ .inserting job id todo) (hlist : ∀ existing, pc ≠ .listed existing) :
    Tracked { s with pc := pc } where
  wellFormed := h.wellFormed
  known := fun _ hj => .inl (h.jobMap_eq hpc hj)
  listed := fun existing hpc' => absurd hpc' (hlist existing)
  untracked := fun job id todo hpc' => absurd hpc' (hins job id todo)

theorem Tracked.retain {s : State} {existing : List ℕ} (h : Tracked s) (hpc : s.pc = .listed existing) :
    Tracked { s with jobMap := retainExisting s.jobMap existing, pc := .retained } where
  wellFormed := h.wellFormed
  known := by
    intro j hj
    have hmap := h.jobMap_eq (by simp [hpc]) hj
    have hexists := h.listed existing hpc j.id (List.mem_map.mpr ⟨j, hj, rfl⟩)
    exact .inl (by simp [retainExisting, hmap, hexists])
  listed := by simp
  untracked := by simp

theorem Tracked.submit {s : State} {job : Job} {id : ℕ} {todo : List Job} {ch : Choir Submission}
    {spec : JobSpec} (h : Tracked s) (hpc : ∀ job id todo, s.pc ≠ .inserting job id todo)
    (hnew : s.jobMap job.key = none) (hch : Choir.Submits s.choir ch id ⟨job.key, spec⟩) :
    Tracked { s with choir := ch, pc := .inserting job id todo } where
  wellFormed := hch.wellFormed h.wellFormed
  known := by
    intro j hj
    rw [hch.jobs, List.mem_append, List.mem_singleton] at hj
    rcases hj with hj | rfl
    · exact .inl (h.jobMap_eq hpc hj)
    · exact .inr ⟨job, todo, rfl, rfl⟩
  listed := by simp
  untracked := by
    intro job' id' todo' hpc'
    obtain ⟨rfl, -, -⟩ := Pc.inserting.inj hpc'
    exact hnew

theorem Tracked.insert {s : State} {job : Job} {id : ℕ} {todo : List Job} (h : Tracked s)
    (hpc : s.pc = .inserting job id todo) :
    Tracked { s with jobMap := insertJob s.jobMap job.key id, pc := .submitting todo } where
  wellFormed := h.wellFormed
  known := by
    intro j hj
    left
    rcases h.known j hj with hmap | ⟨job', todo', hins, hkey⟩
    · have hne : j.payload.key ≠ job.key := by
        intro heq
        rw [heq, h.untracked job id todo hpc] at hmap
        simp at hmap
      simpa [insertJob, hne] using hmap
    · rw [hpc] at hins
      obtain ⟨rfl, rfl, -⟩ := Pc.inserting.inj hins
      simp [insertJob, hkey]
  listed := by simp
  untracked := by simp

/-- Every statement of `refill` and every step of an executor keeps all jobs tracked. -/
theorem Tracked.step {rc : CiConfig} {window : ℕ} {s s' : State} {e : Event} (h : Tracked s)
    (hstep : step rc window s e = some s') : Tracked s' := by
  cases moves_of_step hstep with
  | remove drop hpc =>
    exact (h.shrinks (s.choir.remove_shrinks drop)).goto (by simp [hpc]) (by simp) (by simp)
  | list hpc =>
    refine ⟨h.wellFormed, fun _ hj => .inl (h.jobMap_eq (by simp [hpc]) hj), ?_, by simp⟩
    intro existing heq id hid
    exact Pc.listed.inj heq ▸ hid
  | retain hpc => exact h.retain hpc
  | desire w durations results hpc => exact h.goto (by simp [hpc]) (by simp) (by simp)
  | tracked hpc hjob => exact h.goto (by simp [hpc]) (by simp) (by simp)
  | submit id hpc hnew hsubmit => exact h.submit (by simp [hpc]) hnew hsubmit
  | insert hpc => exact h.insert hpc
  | done hpc => exact h.goto (by simp [hpc]) (by simp) (by simp)
  | claim ids hclaim => exact h.shrinks (Choir.claim_shrinks hclaim)
  | finish id hfinish => exact h.shrinks (Choir.finish_shrinks hfinish)

theorem Tracked.eq_of_key {s : State} (h : Tracked s) {j j' : ChoirJob Submission}
    (hj : j ∈ s.choir.jobs) (hj' : j' ∈ s.choir.jobs) (hkey : j.payload.key = j'.payload.key) :
    j = j' := by
  have hid : j.id = j'.id := by
    rcases h.known j hj with hmap | ⟨job, todo, hins, hk⟩
    · rcases h.known j' hj' with hmap' | ⟨job', todo', hins', hk'⟩
      · exact Option.some.inj (hmap.symm.trans (hkey ▸ hmap'))
      · rw [hkey, hk', h.untracked _ _ _ hins'] at hmap
        simp at hmap
    · rcases h.known j' hj' with hmap' | ⟨job', todo', hins', hk'⟩
      · rw [← hkey, hk, h.untracked _ _ _ hins] at hmap'
        simp at hmap'
      · exact (Pc.inserting.inj (hins.symm.trans hins')).2.1
  exact List.inj_on_of_nodup_map h.wellFormed.nodup hj hj' hid

/-- How many jobs may be pending, and how many more may come in this pass. -/
def Budget (window : ℕ) (s : State) : Prop :=
  match s.pc with
  | .idle => s.choir.pending ≤ window + window / 4
  | .removed | .listed _ | .retained => s.choir.pending ≤ window / 4
  | .submitting todo | .inserting _ _ todo => s.choir.pending + todo.length ≤ window + window / 4

theorem length_desiredJobs_le (rc : CiConfig) (w : World) (durations : Option (List Duration))
    (results : Text → TestResultsMap) (limit : ℕ) :
    (desiredJobs rc w durations results limit).length ≤ limit := by
  rw [desiredJobs, desiredJobsOf_eq]
  exact List.length_take_le _ _

theorem Budget.shrinks {window : ℕ} {s : State} {ch : Choir Submission} (h : Budget window s)
    (hch : Choir.Shrinks s.choir ch) : Budget window { s with choir := ch } := by
  have hle := hch.pending
  unfold Budget at h ⊢
  cases hpc : s.pc <;> simp only [hpc] at h ⊢ <;> omega

def Event.IsRemove : Event → Prop
  | remove _ => True
  | _ => False

theorem Budget.step {rc : CiConfig} {window : ℕ} {s s' : State} {e : Event} (h : Budget window s)
    (he : ¬ e.IsRemove) (hstep : step rc window s e = some s') : Budget window s' := by
  cases moves_of_step hstep with
  | remove drop => exact absurd trivial he
  | list hpc => simpa [Budget, hpc] using h
  | retain hpc => simpa [Budget, hpc] using h
  | desire w durations results hpc =>
    have hlen := length_desiredJobs_le rc w durations results window
    simp only [Budget, hpc] at h ⊢
    omega
  | tracked hpc hjob =>
    simp only [Budget, hpc, List.length_cons] at h ⊢
    omega
  | submit id hpc hnew hsubmit =>
    have hpending := hsubmit.pending
    simp only [Budget, hpc, List.length_cons] at h ⊢
    omega
  | insert hpc => simpa [Budget, hpc] using h
  | done hpc => simpa [Budget, hpc] using h
  | claim ids hclaim => exact h.shrinks (Choir.claim_shrinks hclaim)
  | finish id hfinish => exact h.shrinks (Choir.finish_shrinks hfinish)

open EventRuns

theorem pending_le_of_pass {rc : CiConfig} {window : ℕ} {s s' : State} {drop : ℕ → Bool}
    {pass : List Event} (hpending : s.choir.pending ≤ window / 4) (hpass : ∀ e ∈ pass, ¬ e.IsRemove)
    (hrun : run (step rc window) s (.remove drop :: pass) = some s') (hend : s'.pc = .idle) :
    s'.choir.pending ≤ window + window / 4 := by
  obtain ⟨s₁, hstep, hrun⟩ := run_cons_eq_some_iff.mp hrun
  have hstart : Budget window s₁ := by
    cases moves_of_step hstep with
    | remove _ hpc => exact (s.choir.remove_shrinks drop).pending.trans hpending
  have hbudget : Budget window s' :=
    run_invariant (fun _ _ _ he hs hstep => hs.step he hstep) hpass hstart hrun
  simpa [Budget, hend] using hbudget

structure Safe (rc : CiConfig) (window : ℕ) (s : State) : Prop where
  distinct : ∀ j ∈ s.choir.jobs, ∀ j' ∈ s.choir.jobs, j.payload.key = j'.payload.key → j = j'
  mapped : s.pc = .idle → ∀ j ∈ s.choir.jobs, s.jobMap j.payload.key = some j.id
  bounded : s.choir.pending ≤ window / 4 → ∀ drop pass s', (∀ e ∈ pass, ¬ e.IsRemove) →
    run (step rc window) s (.remove drop :: pass) = some s' → s'.pc = .idle →
      s'.choir.pending ≤ window + window / 4

/-- Whatever the executors do between the statements of `refill`, no key is in the queue
twice, and the window is not overrun. -/
theorem refill_safe (rc : CiConfig) (window : ℕ) (events : List Event) (s : State)
    (hrun : run (step rc window) initial events = some s) : Safe rc window s := by
  have htracked : Tracked s :=
    run_invariant_all (fun _ _ _ hs hstep => hs.step hstep) initial_tracked hrun
  refine ⟨fun j hj j' hj' hkey => htracked.eq_of_key hj hj' hkey, ?_, ?_⟩
  · intro hpc j hj
    exact htracked.jobMap_eq (by simp [hpc]) hj
  · intro hpending drop pass s' hpass hrun' hend
    exact pending_le_of_pass hpending hpass hrun' hend

theorem refill_safe_claimed_before_insert : ∃ s, run (step bootConfig 4) initial
    [.remove (fun _ => true), .list, .retain, .desire bootWorld none (fun _ => ∅), .submit 0,
      .claim [0], .insert, .finish 0, .done] = some s ∧ Safe bootConfig 4 s := by
  have hsome : (run (step bootConfig 4) initial
      [.remove (fun _ => true), .list, .retain, .desire bootWorld none (fun _ => ∅), .submit 0,
        .claim [0], .insert, .finish 0, .done]).isSome = true := by decide +kernel
  obtain ⟨s, hrun⟩ := Option.isSome_iff_exists.mp hsome
  exact ⟨s, hrun, refill_safe bootConfig 4 _ s hrun⟩

end Refill
end KtestCi
