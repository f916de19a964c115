import KtestCi.BatchOwed
import KtestCi.EventRuns
import KtestCi.ResultsStoreRestart

/-!
# Executors share the store

Any number of batches run at the same time, also on the same keys, while the files in the
result directories change in any way. Every result that is in progress belongs to a batch
that has not returned.
-/

namespace KtestCi
namespace BatchRun

open EventRuns

/-- The store and the batches that have been claimed, with where each of them is. -/
structure Pool where
  store : TestResultsStore
  runs : List (Batch × Stage)

inductive PoolEvent where
  /-- An executor claims a batch and calls `run_ktest_job`. -/
  | claim (b : Batch)
  /-- A batch makes a step. -/
  | move (i : ℕ) (e : Event)
  /-- The result directories change. -/
  | files (commits : TextMap (TextMap ResultDir))

def Pool.step (p : Pool) : PoolEvent → Option Pool
  | .claim b => if b.Homogeneous then some { p with runs := p.runs ++ [(b, .start)] } else none
  | .move i e => match p.runs[i]? with
    | none => none
    | some (b, st) => (BatchRun.step b p.store st e).map (fun next =>
        ⟨next.1, p.runs.set i (b, next.2)⟩)
  | .files commits =>
    some { p with store := { p.store with outputDir := { p.store.outputDir with commits := commits } } }

/-- Every result in progress is owed by one of the batches. -/
structure Pool.Accounted (p : Pool) : Prop where
  homogeneous : ∀ r ∈ p.runs, r.1.Homogeneous
  valid : ∀ r ∈ p.runs, Valid r.1 r.2
  owed : ∀ c k, p.store.lookup c k = some .inprogress →
    ∃ r ∈ p.runs, r.1.commit = c ∧ k ∈ owed r.1 r.2

theorem Pool.Accounted.move {p : Pool} {i : ℕ} {b : Batch} {st st' : Stage} {e : Event}
    {s' : TestResultsStore} (h : p.Accounted) (hi : p.runs[i]? = some (b, st))
    (hm : Moves b p.store st e s' st') : Pool.Accounted ⟨s', p.runs.set i (b, st')⟩ := by
  have hmem : (b, st) ∈ p.runs := List.mem_of_getElem? hi
  have hb := h.homogeneous _ hmem
  have hvalid := h.valid _ hmem
  have hnew : (b, st') ∈ p.runs.set i (b, st') :=
    List.mem_set (List.getElem?_eq_some_iff.mp hi).1 _
  refine ⟨forall_mem_set h.homogeneous hb, forall_mem_set h.valid (hvalid.moves hb hm), ?_⟩
  intro c k hk
  by_cases hc : b.commit = c
  · subst hc
    rcases hm.owed_or hvalid hb hk with howed | ⟨hold, hnot⟩
    · exact ⟨_, hnew, rfl, howed⟩
    · obtain ⟨r, hr, hrc, howed⟩ := h.owed _ k hold
      have hne : r ≠ (b, st) := by
        rintro rfl
        exact hnot howed
      exact ⟨r, mem_set_of_ne hi hr hne, hrc, howed⟩
  · rw [hm.lookup_other hc] at hk
    obtain ⟨r, hr, hrc, howed⟩ := h.owed c k hk
    have hne : r ≠ (b, st) := by
      rintro rfl
      exact hc hrc
    exact ⟨r, mem_set_of_ne hi hr hne, hrc, howed⟩

theorem Pool.Accounted.step {p p' : Pool} {e : PoolEvent} (h : p.Accounted)
    (hstep : p.step e = some p') : p'.Accounted := by
  cases e with
  | claim b =>
    simp only [Pool.step] at hstep
    split_ifs at hstep with hb
    obtain rfl := Option.some.inj hstep
    refine ⟨forall_mem_concat h.homogeneous hb, forall_mem_concat h.valid trivial, ?_⟩
    intro c k hk
    obtain ⟨r, hr, hc, howed⟩ := h.owed c k hk
    exact ⟨r, List.mem_append_left _ hr, hc, howed⟩
  | move i e =>
    simp only [Pool.step] at hstep
    split at hstep
    · simp at hstep
    next b st hi =>
      obtain ⟨⟨s', st'⟩, hmove, rfl⟩ := Option.map_eq_some_iff.mp hstep
      exact h.move hi (moves_of_step b hmove)
  | files commits =>
    obtain rfl := Option.some.inj hstep
    exact ⟨h.homogeneous, h.valid, h.owed⟩

/-- However the executors and the files of their results interleave, a result that is in
progress belongs to a batch whose `run_ktest_job` has not returned. -/
theorem inprogress_belongs_to_running (io : TestResultsStore.LoadIo) (o : OutputDir) (clear : Bool)
    (s : TestResultsStore) (events : List PoolEvent) (p : Pool) (c k : Text)
    (hload : TestResultsStore.load io o clear = some s)
    (hrun : run Pool.step ⟨s, []⟩ events = some p)
    (hk : p.store.lookup c k = some .inprogress) :
    ∃ b st, (b, st) ∈ p.runs ∧ b.commit = c ∧ k ∈ b.keys ∧ ∀ r, st ≠ .returned r := by
  have hstart : Pool.Accounted ⟨s, []⟩ :=
    ⟨by simp, by simp, fun c k h => absurd h (TestResultsStore.lookup_ne_inprogress_of_load hload c k)⟩
  have hacc : p.Accounted := run_invariant_all (fun _ _ _ h hstep => h.step hstep) hstart hrun
  obtain ⟨⟨b, st⟩, hr, hc, howed⟩ := hacc.owed c k hk
  obtain ⟨hkeys, hreturned⟩ :=
    mem_keys_of_mem_owed (hacc.valid _ hr) (hacc.homogeneous _ hr) howed
  exact ⟨b, st, hr, hc, hkeys, hreturned⟩

theorem inprogress_belongs_to_running_boot : ∃ p,
    run Pool.step ⟨⟨⟨∅, ∅⟩, ∅⟩, []⟩ [.claim (bootBatch "git://host/linux".toList),
      .move 0 (.start 5), .move 0 (.mark (.written 5)),
      .move 0 (.update ⟨"1.0".toList, .written⟩)] = some p ∧
    ∃ b st, (b, st) ∈ p.runs ∧ b.commit = "c0ffee".toList ∧ "boot.boot".toList ∈ b.keys ∧
      ∀ r, st ≠ .returned r := by
  have hlookup : (run Pool.step ⟨⟨⟨∅, ∅⟩, ∅⟩, []⟩ [.claim (bootBatch "git://host/linux".toList),
      .move 0 (.start 5), .move 0 (.mark (.written 5)),
      .move 0 (.update ⟨"1.0".toList, .written⟩)]).map
        (fun p => p.store.lookup "c0ffee".toList "boot.boot".toList) = some (some .inprogress) := by
    decide +kernel
  obtain ⟨p, hrun, hk⟩ := Option.map_eq_some_iff.mp hlookup
  refine ⟨p, hrun, ?_⟩
  exact inprogress_belongs_to_running ⟨fun _ => ⟨[], .written⟩, ⟨fun _ _ _ => none, fun o _ _ => o⟩⟩
    ⟨∅, ∅⟩ false ⟨⟨∅, ∅⟩, ∅⟩ _ p _ _ rfl hrun hk

end BatchRun
end KtestCi
