import KtestCi.BatchPool
import KtestCi.DaemonVerdicts
import KtestCi.Reemission

/-!
# A result is claimed once

Over a whole run, and not only while batches run at the same time: once a batch has marked its
results, each of them has a status for good, so the queue takes none of them in again. A batch
that could not check out its repository marks nothing, and a status that cannot be read is
wanted again; both are left out here.
-/

namespace KtestCi
namespace Daemon

open BatchRun (Batch ClaimedJob Stage Moves Marked Pool)
open EventRuns

def holds (c k : Text) (r : Batch × Stage) : Bool := decide (r.1.commit = c) && r.1.keys.contains k

def claims (d : State) (c k : Text) : ℕ := d.runs.countP (holds c k)

/-- The repositories of these jobs can be checked out from somewhere. -/
def Served (rc : CiConfig) (K : JobKey → Prop) : Prop :=
  ∀ k, K k → (rc.ktest.repoPathUrl k.repo).getD [] ≠ []

/-- What holds in every state, beside the exclusion of batches. -/
structure Attended (rc : CiConfig) (K : JobKey → Prop) (d : State) : Prop where
  sound : Sound rc K d
  accounted : Pool.Accounted ⟨d.store, d.runs⟩
  served : ∀ r ∈ d.runs, r.1.params.repoUrl ≠ []
  marked : ∀ r ∈ d.runs, Marked r.1 (d.store, r.2)

variable {rc : CiConfig} {window : ℕ} {K : JobKey → Prop}

theorem holds_iff {c k : Text} {r : Batch × Stage} :
    holds c k r = true ↔ r.1.commit = c ∧ k ∈ r.1.keys := by
  simp [holds]

theorem start_attended {io : TestResultsStore.LoadIo} {o : OutputDir} {clear : Bool}
    {store : TestResultsStore} (hload : TestResultsStore.load io o clear = some store) :
    Attended rc K (start store) where
  sound := start_sound store
  accounted := ⟨by simp [start], by simp [start],
    fun c k h => absurd h (TestResultsStore.lookup_ne_inprogress_of_load hload c k)⟩
  served := by simp [start]
  marked := by simp [start]

theorem isSome_lookup_of_moves {b : Batch} {s s' : TestResultsStore} {st st' : Stage}
    {e : BatchRun.Event} (hm : Moves b s st e s' st') {c k : Text}
    (h : (s.lookup c k).isSome = true) : (s'.lookup c k).isSome = true := by
  by_cases hc : b.commit = c
  · subst hc
    cases hm with
    | marked | recorded | failed => exact BatchRun.isSome_lookup_update h
    | _ => exact h
  · rwa [hm.lookup_other hc]

theorem marked_congr {b : Batch} {st : Stage} {s s' : TestResultsStore} (h : Marked b (s, st))
    (hs : ∀ k, (s.lookup b.commit k).isSome = true → (s'.lookup b.commit k).isSome = true) :
    Marked b (s', st) := by
  cases st with
  | start => trivial
  | marking todo now marks => exact h
  | _ => exact fun k hk => hs k (h k hk)

theorem lookup_congr {s s' : TestResultsStore} (h : s'.byCommit = s.byCommit) (c k : Text) :
    s'.lookup c k = s.lookup c k := by
  rw [TestResultsStore.lookup, h, TestResultsStore.lookup]

theorem repoUrl_of_claim {s : Refill.State} {choir' : Choir Refill.Submission} {ids : List ℕ}
    {b : Batch} (hq : Queued rc K s) (hserved : Served rc K)
    (hb : batchOf (selected s.choir ids) = some b) (hclaim : s.choir.claim ids = some choir') :
    b.params.repoUrl ≠ [] := by
  have hhead : b.head ∈ b.jobs := List.mem_cons_self
  rw [jobs_of_batchOf hb] at hhead
  obtain ⟨j, hj, hclaimed⟩ := List.mem_map.mp hhead
  obtain ⟨hKj, job, hkey, hspec⟩ := hq.jobs j (mem_selected hq.tracked.wellFormed hclaim hj).1
  have hparams : b.params = (makeJobSpec rc job).params := by
    rw [Batch.params, ← hclaimed, claimedJob, hspec]
  rw [hparams]
  exact hserved job.key (hkey ▸ hKj)

theorem Attended.step {d d' : State} {e : Event} (h : Attended rc K d) (hK : Separated K)
    (hserved : Served rc K) (he : e.Within rc K) (hstep : step rc window d e = some d') :
    Attended rc K d' := by
  have hsound := h.sound.step hK he hstep
  cases effect_of_step hstep with
  | quiet hresults hruns =>
    refine ⟨hsound, ?_, hruns ▸ h.served, ?_⟩
    · rw [hruns]
      refine ⟨h.accounted.homogeneous, h.accounted.valid, ?_⟩
      intro c k hk
      exact h.accounted.owed c k ((lookup_congr hresults c k).symm.trans hk)
    · intro r hr
      refine marked_congr (h.marked r (hruns ▸ hr)) ?_
      intro k hk
      rwa [lookup_congr hresults]
  | @claim ids b choir' hids hb hclaim =>
    have hhom := hsound.exclusive.holding.homogeneous (b, .start) (by simp)
    refine ⟨hsound, ?_, ?_, forall_mem_concat h.marked trivial⟩
    · exact h.accounted.step (e := .claim b) (by simp [Pool.step, hhom])
    · exact forall_mem_concat h.served (repoUrl_of_claim h.sound.exclusive.queued hserved hb hclaim)
  | @move i b st st' e store' hi hm =>
    have hmem : (b, st) ∈ d.runs := List.mem_of_getElem? hi
    refine ⟨hsound, h.accounted.move hi hm, forall_mem_set h.served (h.served (b, st) hmem), ?_⟩
    have hkept : ∀ r ∈ d.runs, Marked r.1 (store', r.2) := fun r hr =>
      marked_congr (h.marked r hr) (fun k hk => isSome_lookup_of_moves hm hk)
    exact forall_mem_set hkept
      ((h.marked _ hmem).moves (h.served _ hmem) hm)

/-- The claims of a result against its status when the daemon started. -/
structure Ledger (before : Option TestStatus) (c k : Text) (d : State) : Prop where
  once : claims d c k ≤ 1
  unclaimed : claims d c k = 0 → d.store.lookup c k = before
  claimed : claims d c k ≠ 0 → jobWanted before = true

/-- A batch that has a result in hand keeps it from being claimed, unless its status cannot be
read. -/
theorem claims_eq_zero_of_claim {d d' : State} {b : Batch} (h : Attended rc K d) (hK : Separated K)
    (h' : Attended rc K d') (hruns : d'.runs = d.runs ++ [(b, .start)]) (hstore : d'.store = d.store)
    {k : Text} (hk : k ∈ b.keys) (hknown : d.store.lookup b.commit k ≠ some .unknown) :
    claims d b.commit k = 0 := by
  have hnew : (b, Stage.start) ∈ d'.runs := by simp [hruns]
  have hwanted := h'.sound.exclusive.fresh.starting _ hnew rfl k hk
  rw [hstore] at hwanted
  have hnone : d.store.lookup b.commit k = none :=
    ((jobWanted_iff _).mp hwanted).resolve_right hknown
  refine List.countP_eq_zero.mpr ?_
  intro r hr hholds
  obtain ⟨hcommit, hkr⟩ := holds_iff.mp hholds
  -- before its marks are in the store the batch is still running
  have hactive : Active r → False := by
    intro hactive
    obtain ⟨i, hi⟩ := List.mem_iff_getElem?.mp hr
    have hlt := (List.getElem?_eq_some_iff.mp hi).1
    have hold : d'.runs[i]? = some r := by rw [hruns, List.getElem?_append_left hlt, hi]
    have hlast : d'.runs[d.runs.length]? = some (b, .start) := by
      rw [hruns, List.getElem?_concat_length]
    exact h'.sound.exclusive.disjoint hK hold hlast hlt.ne hactive (by simp [Active]) hcommit hkr hk
  have hmarked := h.marked r hr
  obtain ⟨b', st⟩ := r
  simp only at hcommit hkr
  cases st with
  | start => exact hactive (by simp [Active])
  | marking todo now marks => exact hactive (by simp [Active])
  | _ =>
    have hsome := hmarked k hkr
    rw [hcommit, hnone] at hsome
    simp at hsome

theorem claims_move (d : State) (c k : Text) (store' : TestResultsStore) {i : ℕ} {b : Batch} {st : Stage}
    (hi : d.runs[i]? = some (b, st)) (st' : Stage) :
    claims { d with store := store', runs := d.runs.set i (b, st') } c k = claims d c k := by
  obtain ⟨hlt, hget⟩ := List.getElem?_eq_some_iff.mp hi
  have hsame : holds c k (b, st') = holds c k (b, st) := rfl
  rw [claims, claims, List.countP_set hlt, hget, hsame]
  cases hb : holds c k (b, st) with
  | false => simp
  | true =>
    have hpos : 0 < d.runs.countP (holds c k) :=
      List.countP_pos_iff.mpr ⟨_, List.mem_of_getElem? hi, hb⟩
    simp only [if_true]
    omega

theorem Ledger.step {before : Option TestStatus} {c k : Text} {d d' : State} {e : Event}
    (h : Ledger before c k d) (hd : Attended rc K d) (hd' : Attended rc K d') (hK : Separated K)
    (hknown : d.store.lookup c k ≠ some .unknown) (hstep : step rc window d e = some d') :
    Ledger before c k d' := by
  cases effect_of_step hstep with
  | quiet hresults hruns =>
    have hclaims : claims d' c k = claims d c k := by rw [claims, hruns, claims]
    refine ⟨hclaims ▸ h.once, ?_, fun hne => h.claimed (hclaims ▸ hne)⟩
    intro hzero
    rw [lookup_congr hresults]
    exact h.unclaimed (hclaims ▸ hzero)
  | @claim ids b choir' hids hb hclaim =>
    have hcount : claims { d with
        refill := { d.refill with choir := choir' }
        runs := d.runs ++ [(b, .start)] } c k =
          claims d c k + if holds c k (b, .start) then 1 else 0 := by
      rw [claims, List.countP_append, List.countP_singleton, claims]
    by_cases hholds : holds c k (b, .start) = true
    · obtain ⟨rfl, hk⟩ := holds_iff.mp hholds
      have hzero := claims_eq_zero_of_claim hd hK hd' rfl rfl hk hknown
      have hwanted := hd'.sound.exclusive.fresh.starting (b, .start) (by simp) rfl k hk
      refine ⟨?_, ?_, fun _ => (h.unclaimed hzero) ▸ hwanted⟩
      · rw [hcount, hzero, if_pos hholds]
      · rw [hcount, if_pos hholds]
        intro hne
        omega
    · rw [if_neg hholds, Nat.add_zero] at hcount
      exact ⟨hcount ▸ h.once, fun hzero => h.unclaimed (hcount ▸ hzero),
        fun hne => h.claimed (hcount ▸ hne)⟩
  | @move i b st st' e store' hi hm =>
    have hmem : (b, st) ∈ d.runs := List.mem_of_getElem? hi
    have hsame := claims_move d c k store' hi st'
    refine ⟨hsame ▸ h.once, ?_, fun hne => h.claimed (hsame ▸ hne)⟩
    intro hzero
    rw [hsame] at hzero
    have hnot : ¬ (b.commit = c ∧ k ∈ b.keys) := fun hboth =>
      (List.countP_eq_zero.mp hzero) _ hmem (holds_iff.mpr hboth)
    rw [lookup_unchanged hm (hd.accounted.valid _ hmem) (hd.accounted.homogeneous _ hmem) hnot]
    exact h.unclaimed hzero

def readable (c k : Text) (d : State) (_ : Event) : Bool := d.store.lookup c k ≠ some .unknown

theorem within_matrixKeys {events : List Event} : ∀ e ∈ events, e.Within rc (MatrixKeys rc events) := by
  intro e he
  cases e with
  | desire w durations => exact fun k hk => ⟨w, durations, he, hk⟩
  | _ => trivial

theorem ledger_of_run {d : State} {store : TestResultsStore} {events : List Event} {c k : Text}
    (h : Attended rc K (start store)) (hK : Separated K) (hserved : Served rc K)
    (hwithin : ∀ e ∈ events, e.Within rc K)
    (hreadable : along (readable c k) (Daemon.step rc window) (start store) events = true)
    (hrun : run (Daemon.step rc window) (start store) events = some d) :
    Ledger (store.lookup c k) c k d := by
  have hstart : Ledger (store.lookup c k) c k (start store) :=
    ⟨by simp [claims, start], fun _ => rfl, fun hne => absurd rfl hne⟩
  have hstep : ∀ d e d', e.Within rc K → readable c k d e = true →
      Attended rc K d ∧ Ledger (store.lookup c k) c k d → Daemon.step rc window d e = some d' →
      Attended rc K d' ∧ Ledger (store.lookup c k) c k d' := by
    intro d e d' he hknown hd hstep
    have hd' := hd.1.step hK hserved he hstep
    exact ⟨hd', hd.2.step hd.1 hd' hK (by simpa [readable] using hknown) hstep⟩
  exact (run_invariant_allowed_along hstep hwithin hreadable ⟨h, hstart⟩ hrun).2

/-- In a run of the daemon whose matrix has one job for every result, no result is ever claimed
twice, none is claimed that had a status when the daemon started, and none changes that was not
claimed. -/
theorem result_claimed_once (rc : CiConfig) (window : ℕ) (io : TestResultsStore.LoadIo) (o : OutputDir)
    (clear : Bool) (store : TestResultsStore) (events : List Event) (d : State) (c k : Text)
    (hload : TestResultsStore.load io o clear = some store) (hK : Separated (MatrixKeys rc events))
    (hserved : Served rc (MatrixKeys rc events))
    (hreadable : along (readable c k) (Daemon.step rc window) (start store) events = true)
    (hrun : run (Daemon.step rc window) (start store) events = some d) :
    Ledger (store.lookup c k) c k d :=
  ledger_of_run (start_attended hload) hK hserved within_matrixKeys hreadable hrun

def bootMoves : List Event :=
  [.claim [0], .move 0 (.start 5), .move 0 (.mark (.written 5)), .move 0 (.update ⟨"1.0".toList, .written⟩),
    .move 0 (.command (.exited (some 0))), .move 0 (.command (.exited (some 0))),
    .move 0 (.command (.exited (some 0))), .move 0 (.command (.exited (some 0))),
    .move 0 (.pull (fun _ => some ((∅ : ResultDir).insert "status".toList
      ⟨some "========= PASSED boot in 3s\n".toList, 7⟩)) (.exited (some 0))),
    .move 0 .read, .move 0 (.update ⟨"1.1".toList, .written⟩), .move 0 (.teardown 9), .report 0 0]

theorem eq_bootKey_of_matrixKeys {events : List Event}
    (h : ∀ w durations, .desire w durations ∈ events → w = bootWorld) {key : JobKey}
    (hkey : MatrixKeys servedConfig events key) : key = bootKey := by
  have hcells : ∀ spec ∈ buildTestSpecs servedConfig bootWorld, ∀ c ∈ spec.commits,
      ∀ st ∈ spec.subtests, ∀ kernel ∈ spec.kernels,
        (⟨spec.user, spec.repo, c, kernel, spec.env, spec.test, st⟩ : JobKey) = bootKey := by
    decide +kernel
  obtain ⟨w, durations, hmem, spec, age, c, st, kernel, hcell, rfl⟩ := hkey
  obtain rfl := h w durations hmem
  exact hcells spec hcell.spec_mem c (List.mem_of_getElem? hcell.commit_at) st hcell.subtest_mem
    kernel hcell.kernel_mem

theorem separated_boot {events : List Event}
    (h : ∀ w durations, .desire w durations ∈ events → w = bootWorld) :
    Separated (MatrixKeys servedConfig events) ∧ Served servedConfig (MatrixKeys servedConfig events) := by
  refine ⟨⟨?_, ?_⟩, ?_⟩
  · exact fun k k' hk hk' _ _ => (eq_bootKey_of_matrixKeys h hk).trans (eq_bootKey_of_matrixKeys h hk').symm
  · exact fun k hk => eq_bootKey_of_matrixKeys h hk ▸ bootKey_nulFree
  · intro k hk
    rw [eq_bootKey_of_matrixKeys h hk]
    decide +kernel

theorem result_claimed_once_boot : ∃ d,
    run (Daemon.step servedConfig 4) (start ⟨⟨∅, ∅⟩, ∅⟩) (bootPass [0] ++ bootMoves) = some d ∧
      Ledger none "c0ffee".toList "boot.boot".toList d ∧ claims d "c0ffee".toList "boot.boot".toList = 1 := by
  have hdesire : ∀ w durations, Event.desire w durations ∈ bootPass [0] ++ bootMoves → w = bootWorld := by
    simp [bootPass, bootMoves]
  obtain ⟨hK, hserved⟩ := separated_boot hdesire
  have hclaims : (run (Daemon.step servedConfig 4) (start ⟨⟨∅, ∅⟩, ∅⟩) (bootPass [0] ++ bootMoves)).map
      (fun d => claims d "c0ffee".toList "boot.boot".toList) = some 1 := by
    decide +kernel
  obtain ⟨d, hrun, hone⟩ := Option.map_eq_some_iff.mp hclaims
  have hreadable : along (readable "c0ffee".toList "boot.boot".toList) (Daemon.step servedConfig 4)
      (start ⟨⟨∅, ∅⟩, ∅⟩) (bootPass [0] ++ bootMoves) = true := by
    decide +kernel
  refine ⟨d, hrun, ?_, hone⟩
  exact result_claimed_once servedConfig 4 ⟨fun _ => ⟨[], .written⟩, ⟨fun _ _ _ => none, fun o _ _ => o⟩⟩
    ⟨∅, ∅⟩ false ⟨⟨∅, ∅⟩, ∅⟩ _ d _ _ rfl hK hserved hreadable hrun

end Daemon
end KtestCi
