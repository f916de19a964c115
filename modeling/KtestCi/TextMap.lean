import KtestCi.TextSearch
import Std.Data.ExtTreeMap

/-!
# Maps ordered by a text

The lookup lemmas of `Std.ExtTreeMap` at the order of texts, where equal keys are the same
key, the removal of a list of keys, and a partial function on all the entries.
-/

namespace KtestCi

/-- Maps from texts, ordered by key. -/
abbrev TextMap (β : Type) := Std.ExtTreeMap Text β compare

namespace TextMap

variable {β : Type}

theorem getElem?_insert (m : TextMap β) (k k' : Text) (b : β) :
    (m.insert k b)[k']? = if k = k' then some b else m[k']? := by
  simp [Std.ExtTreeMap.getElem?_insert]

theorem getElem?_erase (m : TextMap β) (k k' : Text) :
    (m.erase k)[k']? = if k = k' then none else m[k']? := by
  simp [Std.ExtTreeMap.getElem?_erase]

theorem mem_iff_exists {m : TextMap β} {k : Text} : k ∈ m ↔ ∃ b, m[k]? = some b := by
  rw [Std.ExtTreeMap.mem_iff_isSome_getElem?, Option.isSome_iff_exists]

theorem isEmpty_iff_getElem? (m : TextMap β) : m.isEmpty = true ↔ ∀ k : Text, m[k]? = none := by
  rw [Std.ExtTreeMap.isEmpty_iff, Std.ExtTreeMap.eq_empty_iff_forall_not_mem]
  simp

def eraseKeys (m : TextMap β) (ks : List Text) : TextMap β := ks.foldl (fun m k => m.erase k) m

theorem getElem?_eraseKeys (m : TextMap β) (ks : List Text) (k : Text) :
    (m.eraseKeys ks)[k]? = if k ∈ ks then none else m[k]? := by
  induction ks generalizing m with
  | nil => simp [eraseKeys]
  | cons k' ks ih =>
    have hstep : m.eraseKeys (k' :: ks) = eraseKeys (m.erase k') ks := rfl
    rw [hstep, ih, getElem?_erase]
    by_cases hk : k = k'
    · simp [hk]
    · simp [hk, Ne.symm hk]

theorem mapM_eq_some_iff {γ δ : Type} {f : γ → Option δ} {p : γ → Prop} {g : γ → δ}
    (hf : ∀ c d, f c = some d ↔ p c ∧ d = g c) (l : List γ) (ds : List δ) :
    l.mapM f = some ds ↔ (∀ c ∈ l, p c) ∧ ds = l.map g := by
  induction l generalizing ds with
  | nil => simp [eq_comm]
  | cons c l ih =>
    simp only [List.mapM_cons, Option.bind_eq_bind, Option.bind_eq_some_iff, Option.pure_def,
      Option.some.injEq, hf, ih, List.forall_mem_cons, List.map_cons]
    constructor
    · rintro ⟨_, ⟨hc, rfl⟩, _, ⟨hl, rfl⟩, rfl⟩
      exact ⟨⟨hc, hl⟩, rfl⟩
    · rintro ⟨⟨hc, hl⟩, rfl⟩
      exact ⟨_, ⟨hc, rfl⟩, _, ⟨hl, rfl⟩, rfl⟩

theorem mapM_isSome_iff {γ δ : Type} (f : γ → Option δ) (l : List γ) :
    (l.mapM f).isSome = true ↔ ∀ c ∈ l, (f c).isSome = true := by
  induction l with
  | nil => simp
  | cons c l ih =>
    rw [List.forall_mem_cons, ← ih, List.mapM_cons]
    cases f c <;> cases l.mapM f <;> simp

end TextMap
end KtestCi
