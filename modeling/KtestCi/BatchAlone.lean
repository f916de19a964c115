import KtestCi.BatchOwed
import KtestCi.EventRuns

/-!
# A batch whose keys nobody else touches

One batch from its start to its return. Between its steps the rest of the daemon may change
the store and the directories, except for the results of the batch's own keys.
-/

namespace KtestCi
namespace BatchRun

open EventRuns

variable (b : Batch)

def diskResult (s : TestResultsStore) (k : Text) : Option TestResult :=
  (s.outputDir.resultDir b.commit k).bind readTestResult

def Unaffected (s s' : TestResultsStore) : Prop :=
  ∀ k ∈ b.keys, (s'.results b.commit)[k]? = (s.results b.commit)[k]? ∧
    diskResult b s' k = diskResult b s k

instance (s s' : TestResultsStore) : Decidable (Unaffected b s s') := by
  unfold Unaffected
  infer_instance

/-- A step of the batch, or of anything else. -/
inductive AloneEvent where
  | own (e : Event)
  | other (s : TestResultsStore)

def aloneStep (x : TestResultsStore × Stage) : AloneEvent → Option (TestResultsStore × Stage)
  | .own e => step b x.1 x.2 e
  | .other s => if Unaffected b x.1 s then some (s, x.2) else none

variable {b}

theorem Unaffected.lookup {s s' : TestResultsStore} (h : Unaffected b s s') {k : Text}
    (hk : k ∈ b.keys) : s'.lookup b.commit k = s.lookup b.commit k := by
  rw [TestResultsStore.lookup_eq_results, TestResultsStore.lookup_eq_results, (h k hk).1]

theorem aloneStep_cases {x x' : TestResultsStore × Stage} {e : AloneEvent}
    (h : aloneStep b x e = some x') :
    (∃ e', e = .own e' ∧ Moves b x.1 x.2 e' x'.1 x'.2) ∨
      (∃ s, e = .other s ∧ Unaffected b x.1 s ∧ x' = (s, x.2)) := by
  cases e with
  | own e' => exact .inl ⟨e', rfl, moves_of_step b h⟩
  | other s =>
    simp only [aloneStep] at h
    split_ifs at h with hs
    exact .inr ⟨s, rfl, hs, (Option.some.inj h).symm⟩

theorem Valid.alone {x x' : TestResultsStore × Stage} {e : AloneEvent} (h : Valid b x.2)
    (hb : b.Homogeneous) (hstep : aloneStep b x e = some x') : Valid b x'.2 := by
  obtain ⟨e', -, hm⟩ | ⟨s, -, -, rfl⟩ := aloneStep_cases hstep
  · exact h.moves hb hm
  · exact h

end BatchRun
end KtestCi
