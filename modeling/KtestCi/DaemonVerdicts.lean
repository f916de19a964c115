import KtestCi.DaemonExclusion

/-!
# No subtest runs twice

As long as no two keys of the matrix share a result, running batches are responsible for
disjoint results, a batch starts without a verdict for any of its keys, and a verdict stays
as it was recorded. Two users whose branches share a commit are enough to break this.
-/

namespace KtestCi
namespace Daemon

open BatchRun (Batch ClaimedJob Stage Valid Moves Orderly Unsettled isVerdict moves_of_step)
open EventRuns

variable {rc : CiConfig} {window : ℕ} {K : JobKey → Prop}

/-- Two batches that are both running have no result in common. -/
theorem Exclusive.disjoint {d : State} (h : Exclusive rc K d) (hK : Separated K) {i i' : ℕ}
    {r r' : Batch × Stage} (hi : d.runs[i]? = some r) (hi' : d.runs[i']? = some r') (hne : i ≠ i')
    (hr : Active r) (hr' : Active r') (hcommit : r.1.commit = r'.1.commit) {k : Text}
    (hk : k ∈ r.1.keys) : k ∉ r'.1.keys := by
  intro hk'
  obtain ⟨cj, hcj, j, hj, -, hclaimed, hKj, hc, hresult⟩ :=
    owner h.queued h.holding (List.mem_of_getElem? hi) hr hk
  obtain ⟨cj', hcj', j', hj', -, hclaimed', hKj', hc', hresult'⟩ :=
    owner h.queued h.holding (List.mem_of_getElem? hi') hr' hk'
  have hkey : j.payload.key = j'.payload.key :=
    hK.inj _ _ hKj hKj' (by rw [hc, hc', hcommit]) (by rw [hresult, hresult'])
  have hsame : cj = cj' := by
    rw [← hclaimed, ← hclaimed', h.queued.tracked.eq_of_key hj hj' hkey]
  exact h.holding.disjoint i i' r r' hi hi' hne cj hcj cj' hcj' (congrArg ClaimedJob.id hsame)

structure Standing (store : TestResultsStore) (runs : List (Batch × Stage)) : Prop where
  distinct : ∀ r ∈ runs, r.1.keys.Nodup
  orderly : ∀ r ∈ runs, Orderly r.1 r.2
  unsettled : ∀ r ∈ runs, Unsettled r.1 store r.2

theorem nodup_keys_of_claim {s : Refill.State} {choir' : Choir Refill.Submission} {ids : List ℕ}
    {b : Batch} (hq : Queued rc K s) (hK : Separated K) (hids : ids.Nodup)
    (hb : batchOf (selected s.choir ids) = some b) (hhom : b.Homogeneous)
    (hclaim : s.choir.claim ids = some choir') : b.keys.Nodup := by
  have hjobs := jobs_of_batchOf hb
  have hkeys : b.keys = (selected s.choir ids).map (fun j => b.key (claimedJob j).payload.subtest) := by
    rw [Batch.keys, Batch.subtests, hjobs]
    simp
  rw [hkeys]
  apply List.Nodup.map_on _ (nodup_selected hids)
  intro j hj j' hj' heq
  have hkey {j : ChoirJob Refill.Submission} (hj : j ∈ selected s.choir ids) :
      j ∈ s.choir.jobs ∧ j.payload.key.commit = b.commit ∧
        j.payload.key.resultKey = b.key (claimedJob j).payload.subtest := by
    have hmem := (mem_selected hq.tracked.wellFormed hclaim hj).1
    have hcj : claimedJob j ∈ b.jobs := hjobs ▸ List.mem_map.mpr ⟨j, hj, rfl⟩
    exact ⟨hmem, key_of_claimedJob hq hhom hcj hmem rfl⟩
  obtain ⟨hmem, hc, hresult⟩ := hkey hj
  obtain ⟨hmem', hc', hresult'⟩ := hkey hj'
  exact hq.tracked.eq_of_key hmem hmem' (hK.inj _ _ (hq.jobs j hmem).1 (hq.jobs j' hmem').1
    (hc.trans hc'.symm) (by rw [hresult, hresult', heq]))

theorem Standing.claim {store : TestResultsStore} {runs : List (Batch × Stage)} {b : Batch}
    (h : Standing store runs) (hkeys : b.keys.Nodup)
    (hwanted : ∀ k ∈ b.keys, jobWanted (store.lookup b.commit k) = true) :
    Standing store (runs ++ [(b, .start)]) := by
  refine ⟨forall_mem_concat h.distinct hkeys, forall_mem_concat h.orderly trivial,
    forall_mem_concat h.unsettled ?_⟩
  exact fun k hk => BatchRun.not_isVerdict_of_jobWanted (hwanted k hk)

theorem Standing.move {d : State} {i : ℕ} {b : Batch} {st st' : Stage} {e : BatchRun.Event}
    {store' : TestResultsStore} (h : Standing d.store d.runs) (hd : Exclusive rc K d)
    (hK : Separated K) (hi : d.runs[i]? = some (b, st)) (hm : Moves b d.store st e store' st') :
    Standing store' (d.runs.set i (b, st')) := by
  have hold : (b, st) ∈ d.runs := List.mem_of_getElem? hi
  have horderly : Orderly b st' := (h.orderly _ hold).moves (h.distinct _ hold) hm
  refine ⟨forall_mem_set h.distinct (h.distinct (b, st) hold), forall_mem_set h.orderly horderly, ?_⟩
  intro r hr
  obtain ⟨i', hi'⟩ := List.mem_iff_getElem?.mp hr
  obtain ⟨-, rfl⟩ | ⟨hii, hi'⟩ := getElem?_set_cases hi'
  · exact (h.unsettled _ hold).moves (hd.holding.valid _ hold) (h.orderly _ hold) hm
  · have hrun : r ∈ d.runs := List.mem_of_getElem? hi'
    intro k hk
    obtain ⟨hkeys, hactive⟩ := BatchRun.mem_keys_of_mem_unsettled (hd.holding.valid r hrun)
      (hd.holding.homogeneous r hrun) hk
    have hsame : store'.lookup r.1.commit k = d.store.lookup r.1.commit k := by
      apply lookup_unchanged hm (hd.holding.valid _ hold) (hd.holding.homogeneous _ hold)
      rintro ⟨hc, hkb⟩
      exact hd.disjoint hK hi hi' hii (active_of_moves hm) hactive hc hkb hkeys
    rw [hsame]
    exact h.unsettled r hrun k hk

/-- What a step of the daemon does to the results and the batches. -/
inductive Effect (d : State) : State → Prop
  | quiet {d' : State} (hresults : d'.store.byCommit = d.store.byCommit) (hruns : d'.runs = d.runs) :
      Effect d d'
  | claim {ids : List ℕ} {b : Batch} {choir' : Choir Refill.Submission} (hids : ids.Nodup)
      (hb : batchOf (selected d.refill.choir ids) = some b)
      (hclaim : d.refill.choir.claim ids = some choir') :
      Effect d { d with
        refill := { d.refill with choir := choir' }
        runs := d.runs ++ [(b, .start)] }
  | move {i : ℕ} {b : Batch} {st st' : Stage} {e : BatchRun.Event} {store' : TestResultsStore}
      (hi : d.runs[i]? = some (b, st)) (hm : Moves b d.store st e store' st') :
      Effect d { d with store := store', runs := d.runs.set i (b, st') }

theorem effect_of_step {d d' : State} {e : Event} (hstep : step rc window d e = some d') :
    Effect d d' := by
  cases advances_of_step hstep with
  | claim ids hclaimable hb hclaim => exact .claim hclaimable.1 hb hclaim
  | move i e hi hm => exact .move hi hm
  | refill | snapshot | desire | report | files => exact .quiet rfl rfl

structure Sound (rc : CiConfig) (K : JobKey → Prop) (d : State) : Prop where
  exclusive : Exclusive rc K d
  standing : Standing d.store d.runs

theorem start_sound (store : TestResultsStore) : Sound rc K (start store) :=
  ⟨start_exclusive store, by simp [start], by simp [start], by simp [start]⟩

theorem Sound.step {d d' : State} {e : Event} (h : Sound rc K d) (hK : Separated K)
    (he : e.Within rc K) (hstep : step rc window d e = some d') : Sound rc K d' := by
  have hexclusive := h.exclusive.step hK he hstep
  refine ⟨hexclusive, ?_⟩
  cases effect_of_step hstep with
  | quiet hresults hruns =>
    have hlookup (c k : Text) : d'.store.lookup c k = d.store.lookup c k := by
      rw [TestResultsStore.lookup, hresults, TestResultsStore.lookup]
    rw [hruns]
    refine ⟨h.standing.distinct, h.standing.orderly, ?_⟩
    intro r hr k hk
    rw [hlookup]
    exact h.standing.unsettled r hr k hk
  | @claim ids b choir' hids hb hclaim =>
    have hmem : (b, Stage.start) ∈ d.runs ++ [(b, Stage.start)] := by simp
    have hhom := hexclusive.holding.homogeneous _ hmem
    exact h.standing.claim (nodup_keys_of_claim h.exclusive.queued hK hids hb hhom hclaim)
      (hexclusive.fresh.starting _ hmem rfl)
  | move hi hm => exact h.standing.move h.exclusive hK hi hm

/-- The keys that the matrix has had in the course of a run. -/
def MatrixKeys (rc : CiConfig) (events : List Event) (k : JobKey) : Prop :=
  ∃ w durations, .desire w durations ∈ events ∧ InMatrix rc w k

/-- No two running batches are responsible for one result, no batch starts on a verdict, and
no verdict is replaced. -/
structure NeverDoubleRun (rc : CiConfig) (window : ℕ) (d : State) : Prop where
  exclusive : ∀ (i i' : ℕ) (r r' : Batch × Stage), d.runs[i]? = some r → d.runs[i']? = some r' →
    i ≠ i' → Active r → Active r' → r.1.commit = r'.1.commit → ∀ k ∈ r.1.keys, k ∉ r'.1.keys
  undecided : ∀ r ∈ d.runs, r.2 = .start → ∀ k ∈ r.1.keys,
    isVerdict (d.store.lookup r.1.commit k) = false
  stands : ∀ e d', step rc window d e = some d' → ∀ c k, isVerdict (d.store.lookup c k) = true →
    (d'.store.results c)[k]? = (d.store.results c)[k]?

theorem Sound.neverDoubleRun {d : State} (h : Sound rc K d) (hK : Separated K) :
    NeverDoubleRun rc window d where
  exclusive := fun i i' r r' hi hi' hne hr hr' hcommit k hk =>
    h.exclusive.disjoint hK hi hi' hne hr hr' hcommit hk
  undecided := by
    intro r hr hstart k hk
    exact BatchRun.not_isVerdict_of_jobWanted (h.exclusive.fresh.starting r hr hstart k hk)
  stands := by
    intro e d' hstep c k hverdict
    cases effect_of_step hstep with
    | quiet hresults hruns =>
      rw [TestResultsStore.results, TestResultsStore.commitResults, hresults]
      rfl
    | claim hids hb hclaim => rfl
    | move hi hm =>
      have hmem := List.mem_of_getElem? hi
      refine hm.result_eq (h.exclusive.holding.valid _ hmem) ?_
      rintro ⟨rfl, hk⟩
      have hnot := h.standing.unsettled _ hmem k hk
      simp only at hnot
      rw [hverdict] at hnot
      simp at hnot

/-- In a run of the daemon whose matrix has one job for every result, no subtest is ever run
twice. -/
theorem neverDoubleRun_of_separated (rc : CiConfig) (window : ℕ) (store : TestResultsStore)
    (events : List Event) (d : State) (hK : Separated (MatrixKeys rc events))
    (hrun : run (step rc window) (start store) events = some d) : NeverDoubleRun rc window d := by
  have hwithin : ∀ e ∈ events, e.Within rc (MatrixKeys rc events) := by
    intro e he
    cases e with
    | desire w durations => exact fun k hk => ⟨w, durations, he, hk⟩
    | _ => trivial
  have hsound : Sound rc (MatrixKeys rc events) d :=
    run_invariant (fun _ _ _ he h hstep => h.step hK he hstep) hwithin (start_sound store) hrun
  exact hsound.neverDoubleRun hK

/-- A pass of `refill` over one commit that submits these jobs. -/
def bootPass (ids : List ℕ) : List Event :=
  [.refill (.remove (fun _ => true)), .refill .list, .refill .retain, .snapshot "c0ffee".toList,
    .desire bootWorld none] ++
  ids.flatMap (fun id => [.refill (.submit id), .refill .insert]) ++ [.refill .done]

theorem neverDoubleRun_boot : ∃ d, run (step servedConfig 4) (start ⟨⟨∅, ∅⟩, ∅⟩)
    (bootPass [0] ++ [.claim [0], .move 0 (.start 5)]) = some d ∧ NeverDoubleRun servedConfig 4 d := by
  obtain ⟨d, hrun⟩ : ∃ d, run (step servedConfig 4) (start ⟨⟨∅, ∅⟩, ∅⟩)
      (bootPass [0] ++ [.claim [0], .move 0 (.start 5)]) = some d := ⟨_, rfl⟩
  have hcells : ∀ spec ∈ buildTestSpecs servedConfig bootWorld, ∀ c ∈ spec.commits,
      ∀ st ∈ spec.subtests, ∀ kernel ∈ spec.kernels,
        (⟨spec.user, spec.repo, c, kernel, spec.env, spec.test, st⟩ : JobKey) = bootKey := by
    decide +kernel
  have hkey {k : JobKey} (hk : MatrixKeys servedConfig
      (bootPass [0] ++ [.claim [0], .move 0 (.start 5)]) k) : k = bootKey := by
    obtain ⟨w, durations, hmem, spec, age, c, st, kernel, hcell, rfl⟩ := hk
    obtain ⟨rfl, rfl⟩ : w = bootWorld ∧ durations = none := by simpa [bootPass] using hmem
    exact hcells spec hcell.spec_mem c (List.mem_of_getElem? hcell.commit_at) st hcell.subtest_mem
      kernel hcell.kernel_mem
  refine ⟨d, hrun, neverDoubleRun_of_separated servedConfig 4 _ _ d ⟨?_, ?_⟩ hrun⟩
  · exact fun k k' hk hk' _ _ => (hkey hk).trans (hkey hk').symm
  · exact fun k hk => hkey hk ▸ bootKey_nulFree

def sharedConfig : CiConfig :=
  let userrc := servedConfig.users["user".toList]?.getD none
  { servedConfig with users := servedConfig.users.insert "second".toList userrc }

/-- Both users' jobs for a commit that both branches hold run at the same time. -/
theorem shared_commit_double_run : ¬ ∀ (rc : CiConfig) (window : ℕ) (io : TestResultsStore.LoadIo)
    (o : OutputDir) (clear : Bool) (store : TestResultsStore) (events : List Event) (d : State),
    TestResultsStore.load io o clear = some store →
      run (step rc window) (start store) events = some d → NeverDoubleRun rc window d := by
  intro hall
  obtain ⟨d, hrun, hfirst, hsecond⟩ : ∃ d, run (step sharedConfig 4) (start ⟨⟨∅, ∅⟩, ∅⟩)
      (bootPass [0, 1] ++ [.claim [0], .claim [1]]) = some d ∧
        d.runs[0]? = some (⟨⟨0, (makeJobSpec servedConfig bootJob).params⟩, []⟩, .start) ∧
        d.runs[1]? = some (⟨⟨1, (makeJobSpec servedConfig bootJob).params⟩, []⟩, .start) :=
    ⟨_, rfl, rfl, rfl⟩
  have hsafe := hall sharedConfig 4 ⟨fun _ => ⟨[], .written⟩, ⟨fun _ _ _ => none, fun o _ _ => o⟩⟩
    ⟨∅, ∅⟩ false ⟨⟨∅, ∅⟩, ∅⟩ _ d rfl hrun
  refine hsafe.exclusive 0 1 _ _ hfirst hsecond (by decide) ?_ ?_ rfl "boot.boot".toList ?_ ?_
  · intro result
    simp
  · intro result
    simp
  · decide +kernel
  · decide +kernel

end Daemon
end KtestCi
