import Mathlib.Data.List.Infix
import Mathlib.Data.List.DropRight

/-!
# Substring search and replacement on texts

A text is its list of code points. Comparing two texts as lists is comparing their
UTF-8 encodings byte by byte, so the order of keys is the order of the encoded
strings. The lemmas below say where a pattern can occur in a text that is glued
together from pieces: a pattern that avoids the separator lies inside one piece,
and any other occurrence crosses the separator at one of its own occurrences.
-/

namespace KtestCi

/-- A string, as its list of code points. -/
abbrev Text := List Char

namespace Text

def replaceChar (old new : Char) (t : Text) : Text :=
  t.map (fun c => if c = old then new else c)

/-- Left-to-right replacement of the non-overlapping occurrences of a pattern. The
counter skips the rest of a pattern that has just been replaced. -/
def replaceAux (pat rep : Text) : ℕ → Text → Text
  | _, [] => []
  | k + 1, _ :: cs => replaceAux pat rep k cs
  | 0, c :: cs =>
    if pat.isPrefixOf (c :: cs) then rep ++ replaceAux pat rep (pat.length - 1) cs
    else c :: replaceAux pat rep 0 cs

def replace (t pat rep : Text) : Text := replaceAux pat rep 0 t

def contains (t pat : Text) : Bool := decide (pat <:+: t)

@[simp] theorem contains_eq_true {t pat : Text} : t.contains pat = true ↔ pat <:+: t := by
  simp [contains]

theorem notMem_intercalate {c : Char} {sep : Text} {pieces : List Text} (hsep : c ∉ sep)
    (h : ∀ piece ∈ pieces, c ∉ piece) : c ∉ sep.intercalate pieces := by
  induction pieces with
  | nil => simp
  | cons piece pieces ih =>
    rw [List.forall_mem_cons] at h
    cases pieces with
    | nil => simpa using h.1
    | cons piece' pieces =>
      rw [List.intercalate_cons_cons]
      simp only [List.mem_append, not_or]
      exact ⟨⟨h.1, hsep⟩, ih h.2⟩

theorem notMem_replaceChar {old new : Char} (h : new ≠ old) (t : Text) :
    old ∉ t.replaceChar old new := by
  intro hm
  obtain ⟨c, _, hc⟩ := List.mem_map.mp hm
  by_cases heq : c = old
  · exact h (by simpa [heq] using hc)
  · simp [heq] at hc

theorem mem_replaceChar {old new c : Char} (hold : c ≠ old) (hnew : c ≠ new) (t : Text) :
    c ∈ t.replaceChar old new ↔ c ∈ t := by
  simp only [replaceChar, List.mem_map]
  constructor
  · rintro ⟨a, ha, hac⟩
    split_ifs at hac with h
    · exact absurd hac.symm hnew
    · exact hac ▸ ha
  · exact fun hc => ⟨c, hc, if_neg hold⟩

/-- Replacing a pattern neither adds nor removes characters that are in neither text. The
characters that are skipped belong to the pattern. -/
theorem mem_replaceAux {pat rep : Text} {c : Char} (hne : pat ≠ []) (hpat : c ∉ pat) (hrep : c ∉ rep)
    (t : Text) (k : ℕ) (hskip : c ∉ t.take k) : c ∈ replaceAux pat rep k t ↔ c ∈ t := by
  induction t generalizing k with
  | nil => cases k <;> simp [replaceAux]
  | cons a t ih =>
    cases k with
    | succ k =>
      simp only [List.take_succ_cons, List.mem_cons, not_or] at hskip
      rw [replaceAux, ih k hskip.2, List.mem_cons, or_iff_right hskip.1]
    | zero =>
      rw [replaceAux]
      split_ifs with hmatch
      · obtain ⟨rest, hrest⟩ := List.isPrefixOf_iff_prefix.mp hmatch
        obtain ⟨b, pat', rfl⟩ := List.exists_cons_of_ne_nil hne
        obtain ⟨rfl, rfl⟩ := List.cons.inj hrest
        simp only [List.mem_cons, not_or] at hpat
        rw [List.mem_append, or_iff_right hrep, ih _ (by simpa using hpat.2), List.mem_cons,
          or_iff_right hpat.1]
      · rw [List.mem_cons, List.mem_cons, ih 0 (by simp)]

theorem mem_replace {pat rep : Text} {c : Char} (hne : pat ≠ []) (hpat : c ∉ pat) (hrep : c ∉ rep)
    (t : Text) : c ∈ t.replace pat rep ↔ c ∈ t :=
  mem_replaceAux hne hpat hrep t 0 (by simp)

theorem not_infix_of_notMem {w t : Text} {c : Char} (hw : c ∈ w) (ht : c ∉ t) : ¬ w <:+: t :=
  fun h => ht (h.subset hw)

theorem infix_append_cons_iff {α : Type*} {w a b : List α} {c : α} (hw : c ∉ w) :
    w <:+: a ++ c :: b ↔ w <:+: a ∨ w <:+: b := by
  rw [List.infix_append_iff]
  constructor
  · rintro (h | h | ⟨l₁, l₂, rfl, h₁, h₂⟩)
    · exact .inl h
    · rcases List.infix_cons_iff.mp h with h | h
      · cases w with
        | nil => simp
        | cons x w =>
          obtain ⟨rfl, _⟩ := List.cons_prefix_cons.mp h
          exact absurd List.mem_cons_self hw
      · exact .inr h
    · cases l₂ with
      | nil => exact .inl (by simpa using h₁.isInfix)
      | cons x l₂ =>
        obtain ⟨rfl, _⟩ := List.cons_prefix_cons.mp h₂
        exact absurd (by simp) hw
  · rintro (h | h)
    · exact .inl h
    · exact .inr (.inl (List.infix_cons h))

/-- A pattern with the separator exactly once lies on one side of it, or is cut by
it into a suffix of the left side and a prefix of the right side. -/
theorem two_words_infix_append_cons_iff {u v a b : Text} {c : Char} (hu : c ∉ u) (hv : c ∉ v) :
    u ++ c :: v <:+: a ++ c :: b ↔
      u ++ c :: v <:+: a ∨ u ++ c :: v <:+: b ∨ (u <:+ a ∧ v <+: b) := by
  constructor
  · intro h
    rcases List.infix_append_iff.mp h with h | h | ⟨l₁, l₂, he, h₁, h₂⟩
    · exact .inl h
    · rcases List.infix_cons_iff.mp h with h | h
      · cases u with
        | nil =>
          obtain ⟨-, hvb⟩ := List.cons_prefix_cons.mp h
          exact .inr (.inr ⟨List.nil_suffix, hvb⟩)
        | cons x u =>
          obtain ⟨rfl, _⟩ := List.cons_prefix_cons.mp h
          exact absurd List.mem_cons_self hu
      · exact .inr (.inl h)
    · cases l₂ with
      | nil => exact .inl (by simpa [he] using h₁.isInfix)
      | cons x l₂ =>
        obtain ⟨rfl, hb⟩ := List.cons_prefix_cons.mp h₂
        rcases List.append_eq_append_iff.mp he with ⟨s, hl, hs⟩ | ⟨s, hl, hs⟩
        · cases s with
          | nil =>
            obtain rfl : v = l₂ := by simpa using hs
            exact .inr (.inr ⟨by simpa [hl] using h₁, hb⟩)
          | cons y s =>
            obtain ⟨-, hs⟩ := List.cons.inj hs
            exact absurd (by simp [hs]) hv
        · cases s with
          | nil =>
            obtain rfl : l₂ = v := by simpa using hs
            exact .inr (.inr ⟨by simpa [hl] using h₁, hb⟩)
          | cons y s =>
            obtain ⟨rfl, -⟩ := List.cons.inj hs
            exact absurd (by simp [hl]) hu
  · rintro (h | h | ⟨⟨s, rfl⟩, ⟨t, rfl⟩⟩)
    · exact h.trans List.infix_append_left
    · exact (List.infix_cons h).trans List.infix_append_right
    · exact ⟨s, t, by simp⟩

theorem append_cons_inj {a b a' b' : Text} {c : Char} (ha : c ∉ a) (ha' : c ∉ a')
    (h : a ++ c :: b = a' ++ c :: b') : a = a' ∧ b = b' := by
  induction a generalizing a' with
  | nil =>
    cases a' with
    | nil => exact ⟨rfl, List.tail_eq_of_cons_eq h⟩
    | cons x a' =>
      obtain ⟨rfl, -⟩ := List.cons.inj h
      exact absurd List.mem_cons_self ha'
  | cons y a ih =>
    cases a' with
    | nil =>
      obtain ⟨rfl, -⟩ := List.cons.inj h
      exact absurd List.mem_cons_self ha
    | cons x a' =>
      obtain ⟨rfl, htail⟩ := List.cons.inj h
      obtain ⟨rfl, rfl⟩ := ih (fun hm => ha (List.mem_cons_of_mem y hm))
        (fun hm => ha' (List.mem_cons_of_mem y hm)) htail
      exact ⟨rfl, rfl⟩

theorem infix_rdropWhile_iff {w t : Text} {p : Char → Bool} (hw : ∀ c ∈ w, p c = false) :
    w <:+: t.rdropWhile p ↔ w <:+: t := by
  induction t using List.reverseRecOn with
  | nil => simp
  | append_singleton t c ih =>
    by_cases hc : p c = true
    · rw [List.rdropWhile_concat_pos p t c hc, ih]
      have hcw : c ∉ w := fun hm => by simp [hw c hm] at hc
      rw [infix_append_cons_iff hcw]
      constructor
      · exact .inl
      · rintro (h | h)
        · exact h
        · simp [List.infix_nil.mp h]
    · rw [List.rdropWhile_concat_neg p t c hc]

/-- The decimal rendering of an integer, as the shell's arithmetic expansion prints it. -/
def ofInt (i : ℤ) : Text := (toString i).toList

theorem mem_ofInt {i : ℤ} {c : Char} (h : c ∈ ofInt i) : c = '-' ∨ c.isDigit = true := by
  rw [ofInt, Int.toString_eq_repr, Int.repr_eq_if] at h
  split_ifs at h
  · simp only [Nat.toList_repr] at h
    exact .inr (Nat.isDigit_of_mem_toDigits (by omega) (by omega) h)
  · simp only [String.toList_append, List.mem_append, Nat.toList_repr] at h
    rcases h with h | h
    · exact .inl (by simpa using h)
    · exact .inr (Nat.isDigit_of_mem_toDigits (by omega) (by omega) h)

theorem ofInt_natCast (n : ℕ) : ofInt n = Nat.toDigits 10 n := by
  simp [ofInt, toString, Int.repr, Nat.repr]

theorem ofInt_natCast_inj {m n : ℕ} (h : ofInt m = ofInt n) : m = n := by
  rw [ofInt_natCast, ofInt_natCast] at h
  have hvalue := congrArg (fun cs => Nat.ofDigitChars 10 cs 0) h
  simpa only [Nat.ofDigitChars_ten_toDigits] using hvalue

theorem notMem_ofInt {c : Char} (hsign : c ≠ '-') (hdigit : c.isDigit = false) (i : ℤ) : c ∉ ofInt i := by
  intro h
  rcases mem_ofInt h with h | h
  · exact hsign h
  · rw [hdigit] at h
    cases h

end Text
end KtestCi
