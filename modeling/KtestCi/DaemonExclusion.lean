import KtestCi.BatchVerdicts
import KtestCi.Daemon

/-!
# One batch per result

Jobs are told apart by keys that include the user and the repository, results by commit and
result key only. As long as no two keys of the matrix share a result, the queue's invariant
makes running batches disjoint, and a job that is claimed has had no verdict since the
snapshot that made it wanted.
-/

namespace KtestCi
namespace Daemon

open BatchRun (Batch ClaimedJob Stage Valid Moves moves_of_step)
open EventRuns

/-- No two of these keys share a result, and none holds the separator of batch keys. -/
structure Separated (K : JobKey → Prop) : Prop where
  inj : ∀ k k', K k → K k' → k.commit = k'.commit → k.resultKey = k'.resultKey → k = k'
  nulFree : ∀ k, K k → NulFree k

def InMatrix (rc : CiConfig) (w : World) (k : JobKey) : Prop :=
  ∃ spec age commit subtest kernel, IsCell (buildTestSpecs rc w) spec age commit subtest kernel ∧
    k = ⟨spec.user, spec.repo, commit, kernel, spec.env, spec.test, subtest⟩

/-- The desired jobs that `refill` has not submitted yet. -/
def upcoming : Refill.Pc → List Job
  | .submitting todo | .inserting _ _ todo => todo
  | _ => []

/-- The queue holds jobs of the matrix, each under its own specification. -/
structure Queued (rc : CiConfig) (K : JobKey → Prop) (s : Refill.State) : Prop where
  tracked : Refill.Tracked s
  jobs : ∀ j ∈ s.choir.jobs, K j.payload.key ∧
    ∃ job : Job, job.key = j.payload.key ∧ j.payload.spec = makeJobSpec rc job
  upcoming : ∀ job ∈ upcoming s.pc, K job.key

structure Holding (choir : Choir Refill.Submission) (runs : List (Batch × Stage)) : Prop where
  homogeneous : ∀ r ∈ runs, r.1.Homogeneous
  valid : ∀ r ∈ runs, Valid r.1 r.2
  held : ∀ r ∈ runs, Active r → ∀ cj ∈ r.1.jobs,
    ∃ j ∈ choir.jobs, j.state = .running ∧ claimedJob j = cj
  claimed : ∀ r ∈ runs, ∀ cj ∈ r.1.jobs, cj.id ∈ choir.used ∧
    ∀ j ∈ choir.jobs, j.id = cj.id → j.state ≠ .pending
  disjoint : ∀ (i i' : ℕ) (r r' : Batch × Stage), runs[i]? = some r → runs[i']? = some r' →
    i ≠ i' → ∀ cj ∈ r.1.jobs, ∀ cj' ∈ r'.1.jobs, cj.id ≠ cj'.id

def NoJob (choir : Choir Refill.Submission) (key : JobKey) : Prop :=
  ∀ j ∈ choir.jobs, j.payload.key ≠ key

def statusOf (store : TestResultsStore) (key : JobKey) : Option TestStatus :=
  store.lookup key.commit key.resultKey

/-- Jobs that wait are still wanted, and what `desired_jobs` has read of jobs that are not in
the queue is still so. -/
structure Fresh (K : JobKey → Prop) (d : State) : Prop where
  pending : ∀ j ∈ d.refill.choir.jobs, j.state = .pending →
    jobWanted (statusOf d.store j.payload.key) = true
  starting : ∀ r ∈ d.runs, r.2 = .start → ∀ k ∈ r.1.keys,
    jobWanted (d.store.lookup r.1.commit k) = true
  upcoming : ∀ job ∈ upcoming d.refill.pc, NoJob d.refill.choir job.key →
    jobWanted (statusOf d.store job.key) = true
  view : ∀ key, K key → NoJob d.refill.choir key → ∀ m : TestResultsMap,
    d.view key.commit = some m → m[key.resultKey]?.map TestResult.status = statusOf d.store key

structure Exclusive (rc : CiConfig) (K : JobKey → Prop) (d : State) : Prop where
  queued : Queued rc K d.refill
  holding : Holding d.refill.choir d.runs
  fresh : Fresh K d

variable {rc : CiConfig} {window : ℕ} {K : JobKey → Prop}

theorem start_exclusive (store : TestResultsStore) : Exclusive rc K (start store) where
  queued := ⟨Refill.initial_tracked, by simp [start, Refill.initial],
    by simp [start, Refill.initial, upcoming]⟩
  holding := ⟨by simp [start], by simp [start], by simp [start], by simp [start], by simp [start]⟩
  fresh := ⟨by simp [start, Refill.initial], by simp [start], by simp [start, Refill.initial, upcoming],
    by simp [start]⟩

theorem key_of_claimedJob {s : Refill.State} (hq : Queued rc K s) {b : Batch} (hb : b.Homogeneous)
    {cj : ClaimedJob} (hcj : cj ∈ b.jobs) {j : ChoirJob Refill.Submission} (hj : j ∈ s.choir.jobs)
    (hclaimed : claimedJob j = cj) : j.payload.key.commit = b.commit ∧
      j.payload.key.resultKey = b.key cj.payload.subtest := by
  obtain ⟨-, job, hkey, hspec⟩ := hq.jobs j hj
  have hparams : cj.payload = (makeJobSpec rc job).params := by
    rw [← hclaimed, claimedJob, hspec]
  constructor
  · have hcommit := (hb cj hcj).2.1
    rw [hparams] at hcommit
    rw [← hkey]
    exact hcommit
  · rw [← hkey, ← hb.resultKey hcj, hparams]
    rfl

theorem owner {s : Refill.State} {runs : List (Batch × Stage)} (hq : Queued rc K s)
    (hh : Holding s.choir runs) {r : Batch × Stage} (hr : r ∈ runs) (hactive : Active r) {k : Text}
    (hk : k ∈ r.1.keys) : ∃ cj ∈ r.1.jobs, ∃ j ∈ s.choir.jobs, j.state = .running ∧
      claimedJob j = cj ∧ K j.payload.key ∧ j.payload.key.commit = r.1.commit ∧
        j.payload.key.resultKey = k := by
  obtain ⟨cj, hcj, rfl⟩ := Batch.mem_keys_iff.mp hk
  obtain ⟨j, hj, hrunning, hclaimed⟩ := hh.held r hr hactive cj hcj
  obtain ⟨hcommit, hresult⟩ := key_of_claimedJob hq (hh.homogeneous r hr) hcj hj hclaimed
  exact ⟨cj, hcj, j, hj, hrunning, hclaimed, (hq.jobs j hj).1, hcommit, hresult⟩

theorem active_of_moves {b : Batch} {s s' : TestResultsStore} {st st' : Stage} {e : BatchRun.Event}
    (hm : Moves b s st e s' st') : Active (b, st) := by
  intro result heq
  simp only at heq
  subst heq
  cases hm with
  | setup outcome hsetup hok => cases hsetup
  | setupFailed outcome e hsetup hfail => cases hsetup

/-- A batch changes no result but its own. -/
theorem lookup_unchanged {b : Batch} {s s' : TestResultsStore} {st st' : Stage} {e : BatchRun.Event}
    (hm : Moves b s st e s' st') (hvalid : Valid b st) (hb : b.Homogeneous) {c k : Text}
    (hne : ¬ (b.commit = c ∧ k ∈ b.keys)) : s'.lookup c k = s.lookup c k := by
  rw [TestResultsStore.lookup_eq_results, TestResultsStore.lookup_eq_results, hm.result_eq hvalid]
  rintro ⟨hc, hk⟩
  exact hne ⟨hc, (BatchRun.mem_keys_of_mem_unsettled hvalid hb hk).1⟩

theorem exists_running_of_changed {s : Refill.State} {runs : List (Batch × Stage)}
    (hq : Queued rc K s) (hh : Holding s.choir runs) (hK : Separated K) {b : Batch}
    {st st' : Stage} {store store' : TestResultsStore} {e : BatchRun.Event} (hr : (b, st) ∈ runs)
    (hm : Moves b store st e store' st') {key : JobKey} (hkey : K key)
    (hchanged : statusOf store' key ≠ statusOf store key) :
    ∃ j ∈ s.choir.jobs, j.state = .running ∧ j.payload.key = key ∧ claimedJob j ∈ b.jobs := by
  have hin : b.commit = key.commit ∧ key.resultKey ∈ b.keys := by
    by_contra hne
    exact hchanged (lookup_unchanged hm (hh.valid _ hr) (hh.homogeneous _ hr) hne)
  obtain ⟨cj, hcj, j, hj, hrunning, hclaimed, hKj, hcommit, hresult⟩ :=
    owner hq hh hr (active_of_moves hm) hin.2
  exact ⟨j, hj, hrunning, hK.inj _ _ hKj hkey (hcommit.trans hin.1) hresult, hclaimed ▸ hcj⟩

theorem Holding.keeps {choir choir' : Choir Refill.Submission} {runs : List (Batch × Stage)}
    {P : ℕ → Prop} (h : Holding choir runs) (hch : Choir.Keeps P choir choir')
    (hP : ∀ r ∈ runs, Active r → ∀ cj ∈ r.1.jobs, ¬ P cj.id) : Holding choir' runs where
  homogeneous := h.homogeneous
  valid := h.valid
  held := by
    intro r hr hactive cj hcj
    obtain ⟨j, hj, hrunning, hclaimed⟩ := h.held r hr hactive cj hcj
    have hid : j.id = cj.id := congrArg ClaimedJob.id hclaimed
    exact ⟨j, hch.running j hj hrunning (hid ▸ hP r hr hactive cj hcj), hrunning, hclaimed⟩
  claimed := by
    intro r hr cj hcj
    obtain ⟨hused, hnot⟩ := h.claimed r hr cj hcj
    refine ⟨hch.used _ hused, fun j hj hid hpending => ?_⟩
    rcases hch.pending j hj hpending with hold | hnew
    · exact hnot j hold hid hpending
    · exact hnew (hid ▸ hused)
  disjoint := h.disjoint

theorem Holding.move {choir : Choir Refill.Submission} {runs : List (Batch × Stage)} {i : ℕ}
    {b : Batch} {st st' : Stage} {e : BatchRun.Event} {s s' : TestResultsStore}
    (h : Holding choir runs) (hi : runs[i]? = some (b, st)) (hm : Moves b s st e s' st') :
    Holding choir (runs.set i (b, st')) := by
  have hold : (b, st) ∈ runs := List.mem_of_getElem? hi
  have hbatch {i' : ℕ} {r : Batch × Stage} (hr : (runs.set i (b, st'))[i']? = some r) :
      ∃ r₀, runs[i']? = some r₀ ∧ r₀.1 = r.1 := by
    obtain ⟨rfl, rfl⟩ | ⟨-, hr⟩ := getElem?_set_cases hr
    · exact ⟨(b, st), hi, rfl⟩
    · exact ⟨r, hr, rfl⟩
  refine ⟨?_, ?_, ?_, ?_, ?_⟩
  · exact forall_mem_set h.homogeneous (h.homogeneous (b, st) hold)
  · exact forall_mem_set h.valid ((h.valid _ hold).moves (h.homogeneous _ hold) hm)
  · exact forall_mem_set h.held (fun _ => h.held (b, st) hold (active_of_moves hm))
  · exact forall_mem_set h.claimed (h.claimed (b, st) hold)
  · intro i₁ i₂ r₁ r₂ hr₁ hr₂ hne
    obtain ⟨r₁', hr₁', heq₁⟩ := hbatch hr₁
    obtain ⟨r₂', hr₂', heq₂⟩ := hbatch hr₂
    have hdisjoint := h.disjoint i₁ i₂ r₁' r₂' hr₁' hr₂' hne
    rwa [heq₁, heq₂] at hdisjoint

theorem mem_selected {choir choir' : Choir Refill.Submission} {ids : List ℕ}
    (hw : choir.WellFormed) (hclaim : choir.claim ids = some choir')
    {j : ChoirJob Refill.Submission} (hj : j ∈ selected choir ids) :
    j ∈ choir.jobs ∧ j.id ∈ ids ∧ j.state = .pending := by
  obtain ⟨id, hid, hfind⟩ := List.mem_filterMap.mp hj
  have hmem := List.mem_of_find?_eq_some hfind
  have heq : j.id = id := by simpa using List.find?_some hfind
  obtain ⟨j', hj', hid', hpending⟩ := (Choir.claim_eq hclaim).1 id hid
  have hsame : j = j' := List.inj_on_of_nodup_map hw.nodup hmem hj' (heq.trans hid'.symm)
  exact ⟨hmem, heq ▸ hid, hsame ▸ hpending⟩

theorem nodup_selected {choir : Choir Refill.Submission} {ids : List ℕ} (h : ids.Nodup) :
    (selected choir ids).Nodup := by
  apply h.filterMap
  intro id id' j hj hj'
  have hid : j.id = id := by simpa using List.find?_some hj
  have hid' : j.id = id' := by simpa using List.find?_some hj'
  exact hid.symm.trans hid'

theorem jobs_of_batchOf {js : List (ChoirJob Refill.Submission)} {b : Batch}
    (h : batchOf js = some b) : b.jobs = js.map claimedJob := by
  unfold batchOf at h
  split at h
  · simp at h
  next head tail heq =>
    obtain rfl := Option.some.inj h
    exact heq.symm

theorem homogeneous_of_claim {s : Refill.State} {js : List (ChoirJob Refill.Submission)} {b : Batch}
    (hq : Queued rc K s) (hK : ∀ k, K k → NulFree k) (hjs : ∀ j ∈ js, j ∈ s.choir.jobs)
    (hkeys : ∀ j ∈ js, ∀ j' ∈ js, j.payload.spec.batchKey = j'.payload.spec.batchKey)
    (hb : batchOf js = some b) : b.Homogeneous := by
  have hjobs := jobs_of_batchOf hb
  have hmem {cj : ClaimedJob} (hcj : cj ∈ b.jobs) : ∃ j ∈ js, claimedJob j = cj := by
    rw [hjobs] at hcj
    exact List.mem_map.mp hcj
  intro cj hcj
  obtain ⟨j₀, hj₀, hhead⟩ := hmem (List.mem_cons_self : b.head ∈ b.jobs)
  obtain ⟨j, hj, hclaimed⟩ := hmem hcj
  obtain ⟨hK₀, job₀, hkey₀, hspec₀⟩ := hq.jobs j₀ (hjs j₀ hj₀)
  obtain ⟨hKj, job, hkey, hspec⟩ := hq.jobs j (hjs j hj)
  have hbatch := hkeys j₀ hj₀ j hj
  rw [hspec₀, hspec] at hbatch
  have heq := eq_of_batchKey_eq (hkey₀ ▸ hK _ hK₀) (hkey ▸ hK _ hKj) hbatch
  have hparams : b.params = (makeJobSpec rc job₀).params := by
    rw [Batch.params, ← hhead, claimedJob, hspec₀]
  have hpayload : cj.payload = (makeJobSpec rc job).params := by
    rw [← hclaimed, claimedJob, hspec]
  rw [hparams, hpayload]
  simp only [makeJobSpec]
  rw [heq]
  exact ⟨rfl, rfl, rfl, rfl, rfl⟩

theorem Holding.claim {s : Refill.State} {choir' : Choir Refill.Submission}
    {runs : List (Batch × Stage)} {ids : List ℕ} {b : Batch} (h : Holding s.choir runs)
    (hw : s.choir.WellFormed) (hb : batchOf (selected s.choir ids) = some b)
    (hhom : b.Homogeneous) (hclaim : s.choir.claim ids = some choir') :
    Holding choir' (runs ++ [(b, .start)]) := by
  have hjobs := jobs_of_batchOf hb
  have hsel {cj : ClaimedJob} (hcj : cj ∈ b.jobs) :
      ∃ j ∈ s.choir.jobs, j.id ∈ ids ∧ j.state = .pending ∧ claimedJob j = cj := by
    rw [hjobs] at hcj
    obtain ⟨j, hj, heq⟩ := List.mem_map.mp hcj
    obtain ⟨hmem, hid, hpending⟩ := mem_selected hw hclaim hj
    exact ⟨j, hmem, hid, hpending, heq⟩
  have hkept := h.keeps (Choir.claim_keeps (fun _ => False) hclaim) (fun _ _ _ _ _ => id)
  have hnew {cj : ClaimedJob} (hcj : cj ∈ b.jobs) {r : Batch × Stage} (hr : r ∈ runs)
      {cj' : ClaimedJob} (hcj' : cj' ∈ r.1.jobs) : cj.id ≠ cj'.id := by
    intro heq
    obtain ⟨j, hj, -, hpending, hclaimed⟩ := hsel hcj
    have hid : j.id = cj'.id := (congrArg ClaimedJob.id hclaimed).trans heq
    exact (h.claimed r hr cj' hcj').2 j hj hid hpending
  obtain ⟨-, rfl⟩ := Choir.claim_eq hclaim
  refine ⟨?_, ?_, ?_, ?_, ?_⟩
  · exact forall_mem_concat h.homogeneous hhom
  · exact forall_mem_concat h.valid trivial
  · refine forall_mem_concat hkept.held ?_
    intro hactive cj hcj
    obtain ⟨j, hj, hid, hpending, hclaimed⟩ := hsel hcj
    have hmoved := @Choir.mem_move _ s.choir ids .pending .running j hj
    rw [if_pos ⟨hid, hpending⟩] at hmoved
    exact ⟨_, hmoved, rfl, hclaimed⟩
  · refine forall_mem_concat hkept.claimed ?_
    intro cj hcj
    obtain ⟨j, hj, hid, hpending, hclaimed⟩ := hsel hcj
    have hcid : cj.id = j.id := (congrArg ClaimedJob.id hclaimed).symm
    refine ⟨hcid ▸ hw.used j.id (List.mem_map.mpr ⟨j, hj, rfl⟩), ?_⟩
    intro j' hj' hid'
    exact Choir.state_ne_of_mem_move (by decide) hj' (hid'.trans hcid ▸ hid)
  · intro i i' r r' hr hr' hne cj hcj cj' hcj'
    rw [List.getElem?_append] at hr hr'
    split_ifs at hr hr' with hi hi'
    · exact h.disjoint i i' r r' hr hr' hne cj hcj cj' hcj'
    · obtain rfl : r' = (b, .start) := by simpa using List.mem_of_getElem? hr'
      exact (hnew hcj' (List.mem_of_getElem? hr) hcj).symm
    · obtain rfl : r = (b, .start) := by simpa using List.mem_of_getElem? hr
      exact hnew hcj (List.mem_of_getElem? hr') hcj'
    · obtain ⟨hlt, -⟩ := List.getElem?_eq_some_iff.mp hr
      obtain ⟨hlt', -⟩ := List.getElem?_eq_some_iff.mp hr'
      simp only [List.length_cons, List.length_nil] at hlt hlt'
      omega

/-- A statement of `refill` on the queue: it drops finished jobs, submits the next desired
job, or leaves the queue alone and goes on. -/
inductive Statement (rc : CiConfig) (s : Refill.State) : Refill.State → Prop
  | remove (drop : ℕ → Bool) :
      Statement rc s { s with choir := s.choir.remove drop, pc := .removed }
  | submit {job : Job} {id : ℕ} {todo : List Job} {choir : Choir Refill.Submission}
      (hpc : s.pc = .submitting (job :: todo)) (hnew : s.jobMap job.key = none)
      (hsubmit : Choir.Submits s.choir choir id ⟨job.key, makeJobSpec rc job⟩) :
      Statement rc s { s with choir := choir, pc := .inserting job id todo }
  | goto {jobMap : JobKey → Option ℕ} {pc : Refill.Pc} (h : upcoming pc ⊆ upcoming s.pc) :
      Statement rc s { s with jobMap := jobMap, pc := pc }

theorem statement_of_step {s s' : Refill.State} {e : Refill.Event} (he : isStatement e = true)
    (h : Refill.step rc window s e = some s') : Statement rc s s' := by
  cases Refill.moves_of_step h with
  | remove drop hpc => exact .remove drop
  | list hpc => exact .goto (by simp [upcoming])
  | retain hpc => exact .goto (by simp [upcoming])
  | desire | claim | finish => simp [isStatement] at he
  | tracked hpc hjob => exact .goto (by simp [upcoming, hpc])
  | submit id hpc hnew hsubmit => exact .submit hpc hnew hsubmit
  | insert hpc => exact .goto (by simp [upcoming, hpc])
  | done hpc => exact .goto (by simp [upcoming])

theorem Queued.statement {s s' : Refill.State} (h : Queued rc K s) (ht : Refill.Tracked s')
    (hs : Statement rc s s') : Queued rc K s' := by
  cases hs with
  | remove drop =>
    exact ⟨ht, fun j hj => h.jobs j (List.mem_filter.mp hj).1, by simp [Daemon.upcoming]⟩
  | submit hpc hnew hsubmit =>
    have hjob := h.upcoming
    rw [hpc] at hjob
    refine ⟨ht, ?_, fun job' hjob' => hjob job' (List.mem_cons_of_mem _ hjob')⟩
    intro j hj
    rw [hsubmit.jobs, List.mem_append, List.mem_singleton] at hj
    rcases hj with hj | rfl
    · exact h.jobs j hj
    · exact ⟨hjob _ List.mem_cons_self, _, rfl, rfl⟩
  | goto hup => exact ⟨ht, h.jobs, fun job hjob => h.upcoming job (hup hjob)⟩

theorem Holding.statement {s s' : Refill.State} {runs : List (Batch × Stage)}
    (h : Holding s.choir runs) (hs : Statement rc s s') : Holding s'.choir runs := by
  cases hs with
  | remove drop =>
    exact h.keeps (Choir.remove_keeps (fun _ => False) s.choir drop) (fun _ _ _ _ _ => id)
  | submit hpc hnew hsubmit => exact h.keeps (hsubmit.keeps (fun _ => False)) (fun _ _ _ _ _ => id)
  | goto hup => exact h

theorem NoJob.of_covers {choir choir' : Choir Refill.Submission} {key : JobKey}
    (h : NoJob choir' key) (hcovers : Choir.Covers choir choir') : NoJob choir key := by
  intro j hj heq
  obtain ⟨j', hj', hpayload⟩ := hcovers j hj
  exact h j' hj' (hpayload ▸ heq)

theorem noJob_of_jobMap {s : Refill.State} (h : Refill.Tracked s)
    (hpc : ∀ job id todo, s.pc ≠ .inserting job id todo) {key : JobKey} (hnew : s.jobMap key = none) :
    NoJob s.choir key := by
  intro j hj heq
  have hmap := h.jobMap_eq hpc hj
  rw [heq, hnew] at hmap
  simp at hmap

theorem Fresh.statement {d : State} {s' : Refill.State} (h : Fresh K d)
    (ht : Refill.Tracked d.refill) (hs : Statement rc d.refill s') :
    Fresh K { d with refill := s', view := fun _ => none } := by
  cases hs with
  | remove drop =>
    exact ⟨fun j hj => h.pending j (List.mem_filter.mp hj).1, h.starting, by simp [Daemon.upcoming],
      by simp⟩
  | submit hpc hnew hsubmit =>
    have hno := noJob_of_jobMap ht (by simp [hpc]) hnew
    have hup := h.upcoming
    rw [hpc] at hup
    refine ⟨?_, h.starting, ?_, by simp⟩
    · intro j hj hpending
      rw [hsubmit.jobs, List.mem_append, List.mem_singleton] at hj
      rcases hj with hj | rfl
      · exact h.pending j hj hpending
      · exact hup _ List.mem_cons_self hno
    · intro job' hjob' hno'
      exact hup job' (List.mem_cons_of_mem _ hjob') (hno'.of_covers hsubmit.covers)
  | goto hup => exact ⟨h.pending, h.starting, fun job hjob => h.upcoming job (hup hjob), by simp⟩

/-- What a snapshot says of a job that is not in the queue is true now. -/
theorem Fresh.recorded_eq {d : State} (h : Fresh K d) {key : JobKey} (hkey : K key)
    (hno : NoJob d.refill.choir key) {m : TestResultsMap} (hm : d.view key.commit = some m) :
    recorded (fun c => (d.view c).getD ∅) key = statusOf d.store key := by
  simp only [recorded, hm, Option.getD_some]
  exact h.view key hkey hno m hm

/-- The list that `desired_jobs` returns is wanted now, not only in its snapshots. -/
theorem Fresh.desire {d : State} {w : World} {durations : Option (List Duration)} (h : Fresh K d)
    (hw : ∀ k, InMatrix rc w k → K k) (hviewed : Viewed d.view (buildTestSpecs rc w)) {job : Job}
    (hjob : job ∈ desiredJobs rc w durations (fun c => (d.view c).getD ∅) window)
    (hno : NoJob d.refill.choir job.key) : jobWanted (statusOf d.store job.key) = true := by
  obtain ⟨spec, age, commit, subtest, kernel, hcell, heq, hwanted⟩ :=
    mem_candidates_iff.mp (mem_candidates_of_mem_desiredJobsOf hjob)
  have hkey : job.key = ⟨spec.user, spec.repo, commit, kernel, spec.env, spec.test, subtest⟩ := by
    rw [heq]
    rfl
  have hcommit : job.key.commit ∈ spec.commits := by
    rw [hkey]
    exact List.mem_of_getElem? hcell.commit_at
  obtain ⟨m, hm⟩ := Option.isSome_iff_exists.mp (hviewed spec hcell.spec_mem _ hcommit)
  rw [← h.recorded_eq (hw _ ⟨spec, age, commit, subtest, kernel, hcell, hkey⟩) hno hm]
  exact hwanted

theorem Queued.desire {s : Refill.State} {w : World} {durations : Option (List Duration)}
    {results : Text → TestResultsMap} (h : Queued rc K s) (hw : ∀ k, InMatrix rc w k → K k)
    (ht : Refill.Tracked { s with pc := .submitting (desiredJobs rc w durations results window) }) :
    Queued rc K { s with pc := .submitting (desiredJobs rc w durations results window) } := by
  refine ⟨ht, h.jobs, ?_⟩
  intro job hjob
  obtain ⟨spec, age, commit, subtest, kernel, hcell, rfl, -⟩ :=
    mem_candidates_iff.mp (mem_candidates_of_mem_desiredJobsOf hjob)
  exact hw _ ⟨spec, age, commit, subtest, kernel, hcell, rfl⟩

theorem Fresh.snapshot {d : State} {commit : Text} (h : Fresh K d) :
    Fresh K { d with view := fun c =>
      if c = commit then (d.view c).or (some (d.store.results c)) else d.view c } := by
  refine ⟨h.pending, h.starting, h.upcoming, ?_⟩
  intro key hkey hno m hm
  by_cases hc : key.commit = commit
  · simp only [hc, if_true] at hm
    cases hview : d.view commit with
    | some m' =>
      rw [hview, Option.some_or] at hm
      exact h.view key hkey hno m (by rw [hc, hview, hm])
    | none =>
      rw [hview, Option.none_or] at hm
      rw [← Option.some.inj hm, ← hc]
      exact (TestResultsStore.lookup_eq_results d.store key.commit key.resultKey).symm
  · simp only [hc, if_false] at hm
    exact h.view key hkey hno m hm

theorem Fresh.move {d : State} {i : ℕ} {b : Batch} {st st' : Stage} {e : BatchRun.Event}
    {store' : TestResultsStore} (h : Fresh K d) (hq : Queued rc K d.refill)
    (hh : Holding d.refill.choir d.runs) (hK : Separated K) (hi : d.runs[i]? = some (b, st))
    (hm : Moves b d.store st e store' st') :
    Fresh K { d with store := store', runs := d.runs.set i (b, st') } := by
  have hr : (b, st) ∈ d.runs := List.mem_of_getElem? hi
  have hchanged {key : JobKey} (hkey : K key) (hne : statusOf store' key ≠ statusOf d.store key) :=
    exists_running_of_changed hq hh hK hr hm hkey hne
  have hnojob {key : JobKey} (hkey : K key) (hno : NoJob d.refill.choir key) :
      statusOf store' key = statusOf d.store key := by
    by_contra hne
    obtain ⟨j, hj, -, heq, -⟩ := hchanged hkey hne
    exact hno j hj heq
  refine ⟨?_, ?_, ?_, ?_⟩
  · intro j hj hpending
    have hsame : statusOf store' j.payload.key = statusOf d.store j.payload.key := by
      by_contra hne
      obtain ⟨j', hj', hrunning, heq, -⟩ := hchanged (hq.jobs j hj).1 hne
      rw [hq.tracked.eq_of_key hj' hj heq, hpending] at hrunning
      simp at hrunning
    rw [hsame]
    exact h.pending j hj hpending
  · intro r hmem hstart k hk
    obtain ⟨i', hi'⟩ := List.mem_iff_getElem?.mp hmem
    obtain ⟨-, rfl⟩ | ⟨hii, hi'⟩ := getElem?_set_cases hi'
    · exact absurd hstart (BatchRun.Moves.ne_start hm)
    · have hrun : r ∈ d.runs := List.mem_of_getElem? hi'
      have hactive : Active r := by
        intro result heq
        rw [hstart] at heq
        simp at heq
      obtain ⟨cj, hcj, j, hj, -, hclaimed, hKj, hcommit, hresult⟩ := owner hq hh hrun hactive hk
      have hsame : statusOf store' j.payload.key = statusOf d.store j.payload.key := by
        by_contra hne
        obtain ⟨j', hj', -, heq, hin⟩ := hchanged hKj hne
        rw [hq.tracked.eq_of_key hj' hj heq, hclaimed] at hin
        exact hh.disjoint i i' (b, st) r hi hi' hii cj hin cj hcj rfl
      simp only [statusOf, hcommit, hresult] at hsame
      rw [hsame]
      exact h.starting r hrun hstart k hk
  · intro job hjob hno
    rw [hnojob (hq.upcoming job hjob) hno]
    exact h.upcoming job hjob hno
  · intro key hkey hno m hview
    rw [hnojob hkey hno]
    exact h.view key hkey hno m hview

/-- A claim takes jobs that were wanted all the time they waited. -/
theorem Fresh.claim {d : State} {choir' : Choir Refill.Submission} {ids : List ℕ} {b : Batch}
    (h : Fresh K d) (hq : Queued rc K d.refill) (hb : batchOf (selected d.refill.choir ids) = some b)
    (hhom : b.Homogeneous) (hclaim : d.refill.choir.claim ids = some choir') :
    Fresh K { d with
      refill := { d.refill with choir := choir' }
      runs := d.runs ++ [(b, .start)] } := by
  have hnew {k : Text} (hk : k ∈ b.keys) : jobWanted (d.store.lookup b.commit k) = true := by
    obtain ⟨cj, hcj, rfl⟩ := Batch.mem_keys_iff.mp hk
    have hmem := hcj
    rw [jobs_of_batchOf hb] at hmem
    obtain ⟨j, hj, hclaimed⟩ := List.mem_map.mp hmem
    obtain ⟨hj, -, hpending⟩ := mem_selected hq.tracked.wellFormed hclaim hj
    obtain ⟨hcommit, hresult⟩ := key_of_claimedJob hq hhom hcj hj hclaimed
    have hwanted := h.pending j hj hpending
    rwa [statusOf, hcommit, hresult] at hwanted
  obtain ⟨-, rfl⟩ := Choir.claim_eq hclaim
  have hcovers := Choir.move_covers d.refill.choir ids .pending .running
  refine ⟨?_, ?_, ?_, ?_⟩
  · intro j hj hpending
    exact h.pending j (Choir.mem_of_mem_move hj (by simp [hpending])) hpending
  · intro r hr hstart k hk
    rcases List.mem_append.mp hr with hr | hr
    · exact h.starting r hr hstart k hk
    · obtain rfl := List.mem_singleton.mp hr
      exact hnew hk
  · exact fun job hjob hno => h.upcoming job hjob (hno.of_covers hcovers)
  · exact fun key hkey hno => h.view key hkey (hno.of_covers hcovers)

theorem Fresh.finish {d : State} {choir' : Choir Refill.Submission} {id : ℕ} (h : Fresh K d)
    (hfinish : d.refill.choir.finish id = some choir') :
    Fresh K { d with refill := { d.refill with choir := choir' } } := by
  obtain rfl := Choir.finish_eq hfinish
  have hcovers := Choir.move_covers d.refill.choir [id] .running .finished
  refine ⟨?_, h.starting, ?_, ?_⟩
  · intro j hj hpending
    exact h.pending j (Choir.mem_of_mem_move hj (by simp [hpending])) hpending
  · exact fun job hjob hno => h.upcoming job hjob (hno.of_covers hcovers)
  · exact fun key hkey hno => h.view key hkey (hno.of_covers hcovers)

theorem Queued.shrinks {s : Refill.State} {choir' : Choir Refill.Submission} (h : Queued rc K s)
    (hch : Choir.Shrinks s.choir choir') : Queued rc K { s with choir := choir' } := by
  refine ⟨h.tracked.shrinks hch, ?_, h.upcoming⟩
  intro j hj
  obtain ⟨j₀, hj₀, -, hpayload⟩ := hch.exists_job hj
  exact hpayload ▸ h.jobs j₀ hj₀

/-- The matrix that `desired_jobs` sees is of these keys. -/
def Event.Within (rc : CiConfig) (K : JobKey → Prop) : Event → Prop
  | desire w _ => ∀ k, InMatrix rc w k → K k
  | _ => True

/-- Every step of the daemon keeps the invariant. -/
theorem Exclusive.step {d d' : State} {e : Event} (h : Exclusive rc K d) (hK : Separated K)
    (he : e.Within rc K) (hstep : step rc window d e = some d') : Exclusive rc K d' := by
  obtain ⟨hq, hh, hf⟩ := h
  cases advances_of_step hstep with
  | refill e hstatement hs =>
    have hst := statement_of_step hstatement hs
    exact ⟨hq.statement (hq.tracked.step hs) hst, hh.statement hst, hf.statement hq.tracked hst⟩
  | snapshot commit hpc => exact ⟨hq, hh, hf.snapshot⟩
  | desire w durations hviewed hs =>
    have ht := hq.tracked.step hs
    cases Refill.moves_of_step hs with
    | desire _ _ _ hpc =>
      exact ⟨hq.desire he ht, hh, hf.pending, hf.starting,
        fun job hjob hno => hf.desire he hviewed hjob hno, by simp⟩
  | claim ids hclaimable hb hclaim =>
    have hhom := homogeneous_of_claim hq hK.nulFree
      (fun j hj => (mem_selected hq.tracked.wellFormed hclaim hj).1) hclaimable.2 hb
    exact ⟨hq.shrinks (Choir.claim_shrinks hclaim), hh.claim hq.tracked.wellFormed hb hhom hclaim,
      hf.claim hq hb hhom hclaim⟩
  | move i e hi hm => exact ⟨hq, hh.move hi hm, hf.move hq hh hK hi hm⟩
  | @report b result choir i id hi hid hfinish =>
    refine ⟨hq.shrinks (Choir.finish_shrinks hfinish),
      hh.keeps (Choir.finish_keeps hfinish) ?_, hf.finish hfinish⟩
    intro r hr hactive cj hcj heq
    obtain ⟨cj₀, hcj₀, rfl⟩ := List.mem_map.mp hid
    obtain ⟨i', hi'⟩ := List.mem_iff_getElem?.mp hr
    have hne : i' ≠ i := by
      rintro rfl
      rw [hi] at hi'
      obtain rfl := Option.some.inj hi'
      exact hactive result rfl
    exact hh.disjoint i' i r _ hi' hi hne cj hcj cj₀ hcj₀ heq
  | files commits => exact ⟨hq, hh, hf.pending, hf.starting, hf.upcoming, hf.view⟩

end Daemon
end KtestCi
