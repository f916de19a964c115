import Mathlib.Data.List.Basic

/-!
# Runs of partial event machines

A machine that refuses an event it is not ready for. A run is a list of events that are
all accepted. An invariant of a run is an invariant of its steps. A pool of machines is a
list of their states, of which one changes at a time; a table has an entry for some keys, and
also changes at one of them.
-/

namespace KtestCi
namespace EventRuns

variable {σ ε : Type*} {step : σ → ε → Option σ}

theorem guard_eq_some {p : Prop} [Decidable p] {s t : σ} (h : (if p then some s else none) = some t) :
    p ∧ s = t := by
  split_ifs at h with hp
  exact ⟨hp, Option.some.inj h⟩

/-- Feed events to a machine until one is refused. -/
def run (step : σ → ε → Option σ) : σ → List ε → Option σ
  | s, [] => some s
  | s, e :: es => (step s e).bind (fun s' => run step s' es)

theorem run_cons_eq_some_iff {s t : σ} {e : ε} {es : List ε} :
    run step s (e :: es) = some t ↔ ∃ s', step s e = some s' ∧ run step s' es = some t :=
  Option.bind_eq_some_iff

theorem run_append (s : σ) (es es' : List ε) :
    run step s (es ++ es') = (run step s es).bind (fun s' => run step s' es') := by
  induction es generalizing s with
  | nil => rfl
  | cons e es ih =>
    rw [List.cons_append, run, run, Option.bind_assoc]
    exact congrArg _ (funext ih)

/-- What every allowed step preserves, every allowed run preserves. -/
theorem run_invariant {Allowed : ε → Prop} {Inv : σ → Prop}
    (hstep : ∀ s e s', Allowed e → Inv s → step s e = some s' → Inv s')
    {s t : σ} {es : List ε} (hes : ∀ e ∈ es, Allowed e) (hs : Inv s)
    (hrun : run step s es = some t) : Inv t := by
  induction es generalizing s with
  | nil => exact Option.some.inj hrun ▸ hs
  | cons e es ih =>
    obtain ⟨s', he, hrun⟩ := run_cons_eq_some_iff.mp hrun
    exact ih (fun e' h => hes e' (List.mem_cons_of_mem e h))
      (hstep s e s' (hes e List.mem_cons_self) hs he) hrun

theorem run_invariant_all {Inv : σ → Prop} (hstep : ∀ s e s', Inv s → step s e = some s' → Inv s')
    {s t : σ} {es : List ε} (hs : Inv s) (hrun : run step s es = some t) : Inv t :=
  run_invariant (fun s e s' (_ : True) => hstep s e s') (fun _ _ => trivial) hs hrun

/-- Where some events use up a measure that no event raises, a run has no more of them. -/
theorem run_countP_add_le {Inv : σ → Prop} {m : σ → ℕ} {counts : ε → Bool}
    (hinv : ∀ s e s', Inv s → step s e = some s' → Inv s')
    (hm : ∀ s e s', Inv s → step s e = some s' → m s' + (if counts e then 1 else 0) ≤ m s)
    {s t : σ} {es : List ε} (hs : Inv s) (hrun : run step s es = some t) :
    es.countP counts + m t ≤ m s := by
  induction es generalizing s with
  | nil =>
    obtain rfl := Option.some.inj hrun
    simp
  | cons e es ih =>
    obtain ⟨s', he, hrun⟩ := run_cons_eq_some_iff.mp hrun
    have hrest := ih (hinv s e s' hs he) hrun
    have hfirst := hm s e s' hs he
    rw [List.countP_cons]
    omega

/-- Every event of a run meets a condition on the state that it finds. -/
def along (ok : σ → ε → Bool) (step : σ → ε → Option σ) : σ → List ε → Bool
  | _, [] => true
  | s, e :: es => ok s e && (step s e).all (fun s' => along ok step s' es)

theorem along_cons {ok : σ → ε → Bool} {s s' : σ} {e : ε} (h : step s e = some s') (es : List ε) :
    along ok step s (e :: es) = (ok s e && along ok step s' es) := by
  simp [along, h]

theorem along_append {ok : σ → ε → Bool} {s t : σ} {es : List ε} (hrun : run step s es = some t)
    (es' : List ε) : along ok step s (es ++ es') = (along ok step s es && along ok step t es') := by
  induction es generalizing s with
  | nil =>
    obtain rfl := Option.some.inj hrun
    simp [along]
  | cons e es ih =>
    obtain ⟨s', he, hrun⟩ := run_cons_eq_some_iff.mp hrun
    rw [List.cons_append, along_cons he, along_cons he, ih hrun, Bool.and_assoc]

/-- What every step that meets the condition preserves, a run that meets it preserves. -/
theorem run_invariant_along {ok : σ → ε → Bool} {Inv : σ → Prop}
    (hstep : ∀ s e s', ok s e = true → Inv s → step s e = some s' → Inv s')
    {s t : σ} {es : List ε} (hok : along ok step s es = true) (hs : Inv s)
    (hrun : run step s es = some t) : Inv t := by
  induction es generalizing s with
  | nil => exact Option.some.inj hrun ▸ hs
  | cons e es ih =>
    obtain ⟨s', he, hrun⟩ := run_cons_eq_some_iff.mp hrun
    rw [along_cons he, Bool.and_eq_true] at hok
    exact ih hok.2 (hstep s e s' hok.1 hs he) hrun

theorem run_invariant_allowed_along {ok : σ → ε → Bool} {Allowed : ε → Prop} {Inv : σ → Prop}
    (hstep : ∀ s e s', Allowed e → ok s e = true → Inv s → step s e = some s' → Inv s')
    {s t : σ} {es : List ε} (hes : ∀ e ∈ es, Allowed e) (hok : along ok step s es = true) (hs : Inv s)
    (hrun : run step s es = some t) : Inv t := by
  induction es generalizing s with
  | nil => exact Option.some.inj hrun ▸ hs
  | cons e es ih =>
    obtain ⟨s', he, hrun⟩ := run_cons_eq_some_iff.mp hrun
    rw [along_cons he, Bool.and_eq_true] at hok
    rw [List.forall_mem_cons] at hes
    exact ih hes.2 hok.2 (hstep s e s' hes.1 hok.1 hs he) hrun

section Pools

variable {l : List σ} {i : ℕ} {s x : σ} {P : σ → Prop}

theorem forall_mem_set (h : ∀ s ∈ l, P s) (hx : P x) : ∀ s ∈ l.set i x, P s := by
  intro s hs
  rcases List.mem_or_eq_of_mem_set hs with hs | rfl
  · exact h s hs
  · exact hx

theorem forall_mem_concat (h : ∀ s ∈ l, P s) (hx : P x) : ∀ s ∈ l ++ [x], P s :=
  List.forall_mem_append.mpr ⟨h, List.forall_mem_singleton.mpr hx⟩

theorem getElem?_set_cases {j : ℕ} {y : σ} (hy : (l.set i x)[j]? = some y) :
    (i = j ∧ y = x) ∨ (i ≠ j ∧ l[j]? = some y) := by
  rw [List.getElem?_set] at hy
  split_ifs at hy with hij
  · exact .inl ⟨hij, (Option.some.inj hy).symm⟩
  · exact .inr ⟨hij, hy⟩

theorem mem_set_of_ne (hs : l[i]? = some s) {t : σ} (ht : t ∈ l) (hne : t ≠ s) : t ∈ l.set i x := by
  obtain ⟨j, hj⟩ := List.mem_iff_getElem?.mp ht
  have hji : i ≠ j := by
    rintro rfl
    exact hne (Option.some.inj (hj.symm.trans hs))
  exact List.mem_iff_getElem?.mpr ⟨j, by rwa [List.getElem?_set_ne hji]⟩

end Pools

theorem update_eq_some {ι α : Type*} [DecidableEq ι] {f : ι → Option α} {i j : ι} {x : Option α} {y : α}
    (h : Function.update f i x j = some y) : (j = i ∧ x = some y) ∨ (j ≠ i ∧ f j = some y) := by
  by_cases hji : j = i
  · subst hji
    rw [Function.update_self] at h
    exact .inl ⟨rfl, h⟩
  · rw [Function.update_of_ne hji] at h
    exact .inr ⟨hji, h⟩

end EventRuns
end KtestCi
