import KtestCi.TextSearch

/-!
# Slices of a text at byte offsets

A text has as many bytes as its characters take in UTF-8. A slice from the start to a byte
offset is a prefix of the text with that many bytes; there is none when the offset lies
inside a character or behind the end.
-/

namespace KtestCi

def Text.utf8Len (t : Text) : ℕ := t.foldl (fun n c => n + c.utf8Size) 0

/-- The first `n` bytes; `none` if they end inside a character. -/
def Text.utf8Take : ℕ → Text → Option Text
  | 0, _ => some []
  | _ + 1, [] => none
  | n + 1, c :: t => if c.utf8Size ≤ n + 1 then (utf8Take (n + 1 - c.utf8Size) t).map (c :: ·) else none

namespace Text

@[simp] theorem utf8Len_nil : utf8Len [] = 0 := rfl

@[simp] theorem utf8Len_cons (c : Char) (t : Text) : utf8Len (c :: t) = c.utf8Size + utf8Len t := by
  have hfold : ∀ n, t.foldl (fun n c => n + c.utf8Size) n = n + utf8Len t := by
    unfold utf8Len
    induction t with
    | nil => simp
    | cons a t ih =>
      intro n
      rw [List.foldl_cons, List.foldl_cons, ih (n + a.utf8Size), ih (0 + a.utf8Size)]
      omega
  rw [utf8Len, List.foldl_cons, hfold, Nat.zero_add]

theorem utf8Len_eq_zero_iff {t : Text} : utf8Len t = 0 ↔ t = [] := by
  cases t with
  | nil => simp
  | cons c t =>
    have hpos := c.utf8Size_pos
    rw [utf8Len_cons]
    refine iff_of_false (by omega) (List.cons_ne_nil c t)

theorem utf8Take_zero (t : Text) : utf8Take 0 t = some [] := by
  cases t <;> rfl

theorem utf8Take_eq_some_iff {n : ℕ} {t s : Text} :
    utf8Take n t = some s ↔ s <+: t ∧ utf8Len s = n := by
  induction t generalizing n s with
  | nil =>
    cases n with
    | zero => rw [utf8Take_zero, Option.some.injEq, utf8Len_eq_zero_iff, List.prefix_nil, and_self, eq_comm]
    | succ n =>
      simp only [utf8Take, reduceCtorEq, List.prefix_nil, false_iff, not_and]
      rintro rfl
      simp
  | cons c t ih =>
    have hpos := c.utf8Size_pos
    cases n with
    | zero =>
      rw [utf8Take_zero, Option.some.injEq, utf8Len_eq_zero_iff, eq_comm, iff_and_self]
      rintro rfl
      exact List.nil_prefix
    | succ n =>
      rw [utf8Take]
      constructor
      · intro h
        split_ifs at h with hfits
        obtain ⟨s', hs', rfl⟩ := Option.map_eq_some_iff.mp h
        obtain ⟨hpre, hlen⟩ := ih.mp hs'
        refine ⟨List.cons_prefix_cons.mpr ⟨rfl, hpre⟩, ?_⟩
        rw [utf8Len_cons, hlen]
        omega
      · rintro ⟨hpre, hlen⟩
        cases s with
        | nil => simp at hlen
        | cons a s =>
          obtain ⟨rfl, htail⟩ := List.cons_prefix_cons.mp hpre
          rw [utf8Len_cons] at hlen
          have hrest : utf8Take (n + 1 - a.utf8Size) t = some s := ih.mpr ⟨htail, by omega⟩
          rw [if_pos (by omega), hrest, Option.map_some]

theorem utf8Len_append (s t : Text) : utf8Len (s ++ t) = utf8Len s + utf8Len t := by
  induction s with
  | nil => simp
  | cons c s ih => rw [List.cons_append, utf8Len_cons, utf8Len_cons, ih, Nat.add_assoc]

theorem utf8Len_le_of_prefix {s t : Text} (h : s <+: t) : utf8Len s ≤ utf8Len t := by
  obtain ⟨rest, rfl⟩ := h
  rw [utf8Len_append]
  exact Nat.le_add_right _ _

theorem utf8Take_eq_none_of_short {n : ℕ} {t : Text} (h : utf8Len t < n) : utf8Take n t = none := by
  rw [Option.eq_none_iff_forall_ne_some]
  intro s hs
  obtain ⟨hpre, hlen⟩ := utf8Take_eq_some_iff.mp hs
  have hle := utf8Len_le_of_prefix hpre
  omega

theorem utf8Len_of_ascii {t : Text} (h : ∀ c ∈ t, c.utf8Size = 1) : utf8Len t = t.length := by
  induction t with
  | nil => rfl
  | cons c t ih =>
    rw [List.forall_mem_cons] at h
    rw [utf8Len_cons, h.1, ih h.2, List.length_cons, Nat.add_comm]

/-- The offset lies in the text and inside one of its characters. -/
def splitsAt (n : ℕ) (t : Text) : Bool := decide (n ≤ utf8Len t) && (utf8Take n t).isNone

end Text
end KtestCi
