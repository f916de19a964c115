import KtestCi.GapPrefix

/-!
# Listings that count what they leave out

A listing has a row for each element of interest, and in front of a row the number of
elements without interest since the row before. Spread out again it has every element at its
place, except those without interest at the end.
-/

namespace KtestCi
namespace GapRows

variable {α β γ : Type*}

inductive GapRow (β : Type*) where
  | gap (n : ℕ)
  | row (b : β)
  deriving DecidableEq

/-- The rows of a list. `n` elements without interest have just been read. -/
def gapRows (f : α → Option β) : ℕ → List α → List (GapRow β)
  | _, [] => []
  | n, a :: as => match f a with
    | none => gapRows f (n + 1) as
    | some b => if n ≠ 0 then .gap n :: .row b :: gapRows f 0 as else .row b :: gapRows f 0 as

/-- The elements of interest at their places. -/
def spread : List (GapRow β) → List (Option β)
  | [] => []
  | .gap n :: rows => List.replicate n none ++ spread rows
  | .row b :: rows => some b :: spread rows

variable (f : α → Option β)

@[simp] theorem spread_nil : spread ([] : List (GapRow β)) = [] := rfl

@[simp] theorem spread_gap (n : ℕ) (rows : List (GapRow β)) :
    spread (.gap n :: rows) = List.replicate n none ++ spread rows := rfl

@[simp] theorem spread_row (b : β) (rows : List (GapRow β)) :
    spread (.row b :: rows) = some b :: spread rows := rfl

theorem rdropWhile_replicate_none (n : ℕ) :
    (List.replicate n (none : Option β)).rdropWhile Option.isNone = [] := by
  rw [List.rdropWhile_eq_nil_iff]
  intro x hx
  rw [List.eq_of_mem_replicate hx]
  rfl

theorem rdropWhile_append_some (xs ys : List (Option β)) (b : β) :
    (xs ++ some b :: ys).rdropWhile Option.isNone = xs ++ some b :: ys.rdropWhile Option.isNone := by
  induction ys using List.reverseRecOn with
  | nil => exact List.rdropWhile_concat_neg _ _ _ (by simp)
  | append_singleton ys y ih =>
    have hassoc : xs ++ some b :: (ys ++ [y]) = (xs ++ some b :: ys) ++ [y] := by simp
    cases y with
    | none =>
      rw [hassoc, List.rdropWhile_concat_pos _ _ _ rfl, List.rdropWhile_concat_pos _ _ _ rfl]
      exact ih
    | some c =>
      rw [hassoc, List.rdropWhile_concat_neg _ _ _ (by simp),
        List.rdropWhile_concat_neg _ _ _ (by simp), ← hassoc]

theorem spread_gapRows_from (n : ℕ) (as : List α) :
    spread (gapRows f n as) = (List.replicate n none ++ as.map f).rdropWhile Option.isNone := by
  induction as generalizing n with
  | nil => rw [List.map_nil, List.append_nil, rdropWhile_replicate_none, gapRows, spread_nil]
  | cons a as ih =>
    rw [gapRows, List.map_cons]
    cases hfa : f a with
    | none =>
      have hgap : List.replicate n (none : Option β) ++ none :: as.map f =
          List.replicate (n + 1) none ++ as.map f := by
        rw [List.replicate_succ', List.append_assoc]
        rfl
      rw [hgap]
      exact ih (n + 1)
    | some b =>
      have hrest : spread (gapRows f 0 as) = (as.map f).rdropWhile Option.isNone := ih 0
      rw [rdropWhile_append_some]
      by_cases hn : n = 0
      · subst hn
        simp [hrest]
      · simp [hn, hrest]

theorem spread_gapRows (as : List α) :
    spread (gapRows f 0 as) = (as.map f).rdropWhile Option.isNone := spread_gapRows_from f 0 as

/-- Where the list ends with an element of interest, every element is accounted for. -/
theorem spread_gapRows_of_getLast {as : List α} (h : ∀ a, as.getLast? = some a → (f a).isSome = true) :
    spread (gapRows f 0 as) = as.map f := by
  rw [spread_gapRows]
  rcases List.eq_nil_or_concat as with rfl | ⟨as, a, rfl⟩
  · rfl
  · have hlast : (f a).isSome = true := h a (by simp)
    simp only [List.concat_eq_append, List.map_append, List.map_cons, List.map_nil]
    exact List.rdropWhile_concat_neg _ _ _ (by simpa [Option.isSome_iff_ne_none] using hlast)

def GapRow.mapM (h : β → Option γ) : GapRow β → Option (GapRow γ)
  | gap n => some (gap n)
  | row b => (h b).map row

theorem mapM_gapRows {h : β → Option γ} {g : β → γ} {as : List α} (n : ℕ)
    (hg : ∀ a ∈ as, ∀ b, f a = some b → h b = some (g b)) :
    (gapRows f n as).mapM (GapRow.mapM h) = some (gapRows (fun a => (f a).map g) n as) := by
  induction as generalizing n with
  | nil => rfl
  | cons a as ih =>
    rw [List.forall_mem_cons] at hg
    rw [gapRows, gapRows]
    cases hfa : f a with
    | none => exact ih (n + 1) hg.2
    | some b =>
      have hb := hg.1 b hfa
      by_cases hn : n = 0
      · subst hn
        simp [List.mapM_cons, GapRow.mapM, hb, ih 0 hg.2]
      · simp [List.mapM_cons, GapRow.mapM, hb, hn, ih 0 hg.2]

end GapRows
end KtestCi
