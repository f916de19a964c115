import KtestCi.DaemonExclusion

/-!
# What the members of a batch share

A batch runs under the parameters of its first job. The batch key holds everything of a job
key but the subtest, so that under the first job's parameters every member finds the result
and the directory that its own parameters name. The queue knows every job key at most once,
so no two members have one subtest.
-/

namespace KtestCi

theorem batchKey_eq_iff {k k' : JobKey} (hk : NulFree k) (hk' : NulFree k') :
    batchKey k = batchKey k' ↔ k.user = k'.user ∧ k.repo = k'.repo ∧ k.commit = k'.commit ∧
      k.kernel = k'.kernel ∧ k.env = k'.env ∧ k.test = k'.test := by
  constructor
  · intro h
    rw [eq_of_batchKey_eq hk hk' h]
    exact ⟨rfl, rfl, rfl, rfl, rfl, rfl⟩
  · rintro ⟨huser, hrepo, hcommit, hkernel, henv, htest⟩
    rw [batchKey, batchKey, huser, hrepo, hcommit, hkernel, henv, htest]

def JobParams.commitDir (p : JobParams) : Text := joinPath p.outputDir p.commit

namespace Daemon

open BatchRun (Batch ClaimedJob Stage)
open EventRuns

/-- The parameters of the first job give every member its own result key and directory, and
distinct members have distinct subtests. -/
structure MembersAgree (b : Batch) : Prop where
  resultKey : ∀ j ∈ b.jobs, b.key j.payload.subtest = j.payload.resultKey
  commitDir : ∀ j ∈ b.jobs, b.params.commitDir = j.payload.commitDir
  subtests : b.subtests.Nodup

variable {rc : CiConfig} {window : ℕ}

theorem outputDir_of_claimed {s : Refill.State} {K : JobKey → Prop} (hq : Queued rc K s)
    {j : ChoirJob Refill.Submission} (hj : j ∈ s.choir.jobs) :
    (claimedJob j).payload.outputDir = rc.ktest.outputDir := by
  obtain ⟨-, job, -, hspec⟩ := hq.jobs j hj
  rw [claimedJob, hspec]
  rfl

theorem key_eq_of_subtest_eq {s : Refill.State} (hq : Queued rc NulFree s)
    {j j' : ChoirJob Refill.Submission} (hj : j ∈ s.choir.jobs) (hj' : j' ∈ s.choir.jobs)
    (hbatch : j.payload.spec.batchKey = j'.payload.spec.batchKey)
    (hsubtest : (claimedJob j).payload.subtest = (claimedJob j').payload.subtest) :
    j.payload.key = j'.payload.key := by
  obtain ⟨hnul, job, hkey, hspec⟩ := hq.jobs j hj
  obtain ⟨hnul', job', hkey', hspec'⟩ := hq.jobs j' hj'
  rw [hspec, hspec'] at hbatch
  rw [claimedJob, claimedJob, hspec, hspec'] at hsubtest
  have heq := eq_of_batchKey_eq (hkey ▸ hnul) (hkey' ▸ hnul') hbatch
  have hsame : job.key.subtest = job'.key.subtest := hsubtest
  rw [← hkey, ← hkey', heq, ← hsame]

theorem membersAgree_of_claim {s : Refill.State} {choir : Choir Refill.Submission} {ids : List ℕ}
    {b : Batch} (hq : Queued rc NulFree s) (hclaimable : Claimable (selected s.choir ids) ids)
    (hb : batchOf (selected s.choir ids) = some b) (hclaim : s.choir.claim ids = some choir) :
    MembersAgree b := by
  have hin : ∀ j ∈ selected s.choir ids, j ∈ s.choir.jobs := fun j hj =>
    (mem_selected hq.tracked.wellFormed hclaim hj).1
  have hhom := homogeneous_of_claim hq (fun _ => id) hin hclaimable.2 hb
  have hjobs := jobs_of_batchOf hb
  have houtput : ∀ cj ∈ b.jobs, cj.payload.outputDir = rc.ktest.outputDir := by
    intro cj hcj
    rw [hjobs] at hcj
    obtain ⟨j, hj, rfl⟩ := List.mem_map.mp hcj
    exact outputDir_of_claimed hq (hin j hj)
  refine ⟨fun cj hcj => (hhom.resultKey hcj).symm, ?_, ?_⟩
  · intro cj hcj
    have hhead : b.params.outputDir = rc.ktest.outputDir := houtput b.head List.mem_cons_self
    rw [JobParams.commitDir, JobParams.commitDir, hhead, houtput cj hcj, (hhom cj hcj).2.1]
  · rw [Batch.subtests, hjobs, List.map_map]
    refine List.Nodup.map_on ?_ (nodup_selected hclaimable.1)
    intro j hj j' hj' hsubtest
    exact hq.tracked.eq_of_key (hin j hj) (hin j' hj')
      (key_eq_of_subtest_eq hq (hin j hj) (hin j' hj') (hclaimable.2 j hj j' hj') hsubtest)

/-- The queue holds jobs without null characters, and the members of all batches agree. -/
structure Agreeing (rc : CiConfig) (d : State) : Prop where
  queued : Queued rc NulFree d.refill
  members : ∀ r ∈ d.runs, MembersAgree r.1

theorem start_agreeing (store : TestResultsStore) : Agreeing rc (start store) where
  queued := (start_exclusive store).queued
  members := by simp [start]

/-- Only a claim makes a batch. -/
theorem Agreeing.step {d d' : State} {e : Event} (h : Agreeing rc d) (he : e.Within rc NulFree)
    (hstep : step rc window d e = some d') : Agreeing rc d' := by
  obtain ⟨hq, hmembers⟩ := h
  cases advances_of_step hstep with
  | refill e hstatement hs =>
    exact ⟨hq.statement (hq.tracked.step hs) (statement_of_step hstatement hs), hmembers⟩
  | snapshot commit hpc => exact ⟨hq, hmembers⟩
  | desire w durations hviewed hs =>
    have ht := hq.tracked.step hs
    cases Refill.moves_of_step hs with
    | desire _ _ _ hpc => exact ⟨hq.desire he ht, hmembers⟩
  | claim ids hclaimable hb hclaim =>
    refine ⟨hq.shrinks (Choir.claim_shrinks hclaim), ?_⟩
    exact forall_mem_concat hmembers (membersAgree_of_claim hq hclaimable hb hclaim)
  | @move b st st' store i e hi hm =>
    have hb : MembersAgree b := hmembers (b, st) (List.mem_of_getElem? hi)
    exact ⟨hq, forall_mem_set hmembers hb⟩
  | report i id hi hid hfinish => exact ⟨hq.shrinks (Choir.finish_shrinks hfinish), hmembers⟩
  | files commits => exact ⟨hq, hmembers⟩

/-- Equal batch keys are agreement on everything but the subtest, and so the members of every
batch that is ever claimed agree with its first job. -/
theorem batches_agree (rc : CiConfig) :
    (∀ job job' : Job, NulFree job.key → NulFree job'.key →
      ((makeJobSpec rc job).batchKey = (makeJobSpec rc job').batchKey ↔
        job.key.user = job'.key.user ∧ job.key.repo = job'.key.repo ∧
        job.key.commit = job'.key.commit ∧ job.key.kernel = job'.key.kernel ∧
        job.key.env = job'.key.env ∧ job.key.test = job'.key.test)) ∧
    ∀ (window : ℕ) (store : TestResultsStore) (events : List Event) (d : State),
      (∀ w durations, Event.desire w durations ∈ events → ∀ k, InMatrix rc w k → NulFree k) →
      run (Daemon.step rc window) (start store) events = some d → ∀ r ∈ d.runs, MembersAgree r.1 := by
  refine ⟨fun job job' hjob hjob' => batchKey_eq_iff hjob hjob', ?_⟩
  intro window store events d hnul hrun
  have hwithin : ∀ e ∈ events, e.Within rc NulFree := by
    intro e he
    cases e with
    | desire w durations => exact hnul w durations he
    | _ => trivial
  have hagree : Agreeing rc d :=
    run_invariant (fun _ _ _ he h hstep => h.step he hstep) hwithin (start_agreeing store) hrun
  exact hagree.members

def pairWorld : World := { bootWorld with getSubtests := fun _ => ["boot".toList, "quota".toList] }

def pairEvents : List Event :=
  [.refill (.remove (fun _ => true)), .refill .list, .refill .retain, .snapshot "c0ffee".toList,
    .desire pairWorld none, .refill (.submit 0), .refill .insert, .refill (.submit 1), .refill .insert,
    .refill .done, .claim [0, 1]]

/-- Both subtests are claimed in one batch. -/
theorem batches_agree_pair : ∃ d, run (step servedConfig 4) (start ⟨⟨∅, ∅⟩, ∅⟩) pairEvents = some d ∧
    d.runs.map (fun r => r.1.subtests) = [["boot".toList, "quota".toList]] ∧
    ∀ r ∈ d.runs, MembersAgree r.1 := by
  obtain ⟨d, hrun, hsubtests⟩ : ∃ d, run (step servedConfig 4) (start ⟨⟨∅, ∅⟩, ∅⟩) pairEvents = some d ∧
      d.runs.map (fun r => r.1.subtests) = [["boot".toList, "quota".toList]] := ⟨_, rfl, rfl⟩
  have hcells : ∀ spec ∈ buildTestSpecs servedConfig pairWorld, ∀ c ∈ spec.commits,
      ∀ st ∈ spec.subtests, ∀ kernel ∈ spec.kernels,
        (⟨spec.user, spec.repo, c, kernel, spec.env, spec.test, st⟩ : JobKey) = { bootKey with subtest := st } := by
    decide +kernel
  refine ⟨d, hrun, hsubtests, (batches_agree servedConfig).2 4 _ pairEvents d ?_ hrun⟩
  rintro w durations hmem k ⟨spec, age, c, st, kernel, hcell, rfl⟩
  obtain ⟨rfl, rfl⟩ : w = pairWorld ∧ durations = none := by simpa [pairEvents] using hmem
  rw [hcells spec hcell.spec_mem c (List.mem_of_getElem? hcell.commit_at) st hcell.subtest_mem
    kernel hcell.kernel_mem]
  exact ⟨bootKey_nulFree.user, bootKey_nulFree.repo, bootKey_nulFree.commit, bootKey_nulFree.kernel,
    bootKey_nulFree.env, bootKey_nulFree.test⟩

end Daemon
end KtestCi
