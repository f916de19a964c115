import KtestCi.TextSearch

/-!
# Matches in a text

Three ways the shell's tools look for a pattern: the last occurrence, which a greedy match
runs up to; the first one, which a substitution replaces; and an occurrence as a word, with
no character of a word next to it.
-/

namespace KtestCi
namespace Text

/-- What stands behind the last occurrence of a pattern. -/
def afterLast (pat : Text) : Text → Option Text
  | [] => if pat.isEmpty then some [] else none
  | c :: cs => match afterLast pat cs with
    | some rest => some rest
    | none => if pat.isPrefixOf (c :: cs) then some ((c :: cs).drop pat.length) else none

theorem afterLast_eq_none_iff {pat t : Text} : afterLast pat t = none ↔ ¬ pat <:+: t := by
  induction t with
  | nil => simp [afterLast, List.isEmpty_iff]
  | cons c cs ih =>
    rw [afterLast, List.infix_cons_iff, ← List.isPrefixOf_iff_prefix]
    cases hrest : afterLast pat cs with
    | some rest =>
      have hin : pat <:+: cs := by
        by_contra hnot
        rw [ih.mpr hnot] at hrest
        cases hrest
      simp [hin]
    | none =>
      have hnot := ih.mp hrest
      by_cases hpre : pat.isPrefixOf (c :: cs) = true
      · simp [hpre]
      · simp [hpre, hnot]

theorem afterLast_append {pat u rest : Text} (h : afterLast pat u = some rest) (t : Text) :
    afterLast pat (t ++ u) = some rest := by
  induction t with
  | nil => exact h
  | cons c t ih => rw [List.cons_append, afterLast, ih]

theorem afterLast_spec {pat t rest : Text} (h : afterLast pat t = some rest) :
    ∃ a, t = a ++ (pat ++ rest) := by
  induction t generalizing rest with
  | nil =>
    rw [afterLast] at h
    split_ifs at h with hnil
    exact ⟨[], by simpa [List.isEmpty_iff.mp hnil] using h⟩
  | cons c cs ih =>
    rw [afterLast] at h
    cases hrest : afterLast pat cs with
    | some r =>
      rw [hrest] at h
      obtain rfl := Option.some.inj h
      obtain ⟨a, ha⟩ := ih hrest
      exact ⟨c :: a, by rw [ha, List.cons_append]⟩
    | none =>
      simp only [hrest] at h
      split_ifs at h with hpre
      obtain ⟨s, hs⟩ := List.isPrefixOf_iff_prefix.mp hpre
      rw [← hs, List.drop_left] at h
      obtain rfl := Option.some.inj h
      exact ⟨[], hs.symm⟩

theorem afterLast_eq_some {c : Char} {pat rest : Text} (h : ¬ (c :: pat) <:+: pat ++ rest) (t : Text) :
    afterLast (c :: pat) (t ++ ((c :: pat) ++ rest)) = some rest := by
  apply afterLast_append
  rw [List.cons_append, afterLast, afterLast_eq_none_iff.mpr h]
  have hpre : (c :: pat).isPrefixOf (c :: (pat ++ rest)) = true :=
    List.isPrefixOf_iff_prefix.mpr ⟨rest, rfl⟩
  simp [hpre]

/-- Put a text in the place of the first occurrence of a pattern. -/
def replaceFirst (pat rep : Text) : Text → Text
  | [] => if pat.isEmpty then rep else []
  | c :: cs => if pat.isPrefixOf (c :: cs) then rep ++ (c :: cs).drop pat.length
      else c :: replaceFirst pat rep cs

theorem replaceFirst_self {pat : Text} (hne : pat ≠ []) (rep rest : Text) :
    replaceFirst pat rep (pat ++ rest) = rep ++ rest := by
  obtain ⟨c, pat, rfl⟩ := List.exists_cons_of_ne_nil hne
  have hpre : (c :: pat).isPrefixOf (c :: (pat ++ rest)) = true :=
    List.isPrefixOf_iff_prefix.mpr ⟨rest, rfl⟩
  simp [replaceFirst, hpre]

/-- No end of the text is the beginning of an occurrence of the pattern, whatever follows. -/
def Clear (pat t : Text) : Prop := ∀ s ∈ t.tails, s ≠ [] → ¬ s <+: pat ∧ ¬ pat <+: s

instance (pat t : Text) : Decidable (Clear pat t) := List.decidableBAll _ t.tails

theorem clear_of_notMem {c : Char} {pat t : Text} (h : c ∉ t) : Clear (c :: pat) t := by
  intro s hs hne
  have hsub : s ⊆ t := ((List.mem_tails s t).mp hs).subset
  obtain ⟨d, s, rfl⟩ := List.exists_cons_of_ne_nil hne
  have hd : d ≠ c := fun hdc => h (hdc ▸ hsub List.mem_cons_self)
  simp [List.cons_prefix_cons, hd, Ne.symm hd]

theorem Clear.append {pat a b : Text} (ha : Clear pat a) (hb : Clear pat b) : Clear pat (a ++ b) := by
  intro s hs hne
  obtain ⟨x, hx⟩ := (List.mem_tails s _).mp hs
  rcases List.append_eq_append_iff.mp hx with ⟨m, rfl, rfl⟩ | ⟨m, -, rfl⟩
  · -- the end begins in the first text
    cases m with
    | nil => exact hb b (by simp) hne
    | cons c m =>
      obtain ⟨hnot, hnot'⟩ := ha (c :: m) (by simp) (List.cons_ne_nil c m)
      refine ⟨fun hpre => hnot ((List.prefix_append (c :: m) b).trans hpre), ?_⟩
      intro hpre
      rcases List.prefix_or_prefix_of_prefix hpre (List.prefix_append (c :: m) b) with hle | hle
      · exact hnot' hle
      · exact hnot hle
  · exact hb s (by simp) hne

theorem replaceFirst_append {p a : Text} (h : Clear p a) (q rep t : Text) :
    replaceFirst (p ++ q) rep (a ++ t) = a ++ replaceFirst (p ++ q) rep t := by
  induction a with
  | nil => rfl
  | cons c a ih =>
    have hrest : Clear p a := fun s hs => h s (by simp [hs])
    have hnot : ¬ (p ++ q) <+: c :: (a ++ t) := by
      intro hpre
      have hp : p <+: (c :: a) ++ t := (List.prefix_append p q).trans hpre
      obtain ⟨hnot, hnot'⟩ := h (c :: a) (by simp) (List.cons_ne_nil c a)
      rcases List.prefix_or_prefix_of_prefix hp (List.prefix_append (c :: a) t) with hle | hle
      · exact hnot' hle
      · exact hnot hle
    have hfalse : (p ++ q).isPrefixOf (c :: (a ++ t)) = false := by
      rw [← Bool.not_eq_true, List.isPrefixOf_iff_prefix]
      exact hnot
    rw [List.cons_append, replaceFirst, hfalse, ih hrest]
    rfl

section Words

variable {word : Char → Bool} {q : Text}

def occursAsWordFrom (word : Char → Bool) (q : Text) : Option Char → Text → Bool
  | before, [] => q.isEmpty && !before.any word
  | before, c :: cs =>
    (q.isPrefixOf (c :: cs) && !before.any word && !((c :: cs).drop q.length).head?.any word) ||
      occursAsWordFrom word q (some c) cs

/-- The pattern occurs with no character of a word next to it. -/
def occursAsWord (word : Char → Bool) (q t : Text) : Bool := occursAsWordFrom word q none t

/-- A character next to a word. -/
def Apart (word : Char → Bool) (c : Option Char) : Prop := c.any word = false

theorem getLast?_cons_or (c : Char) (a : Text) (before : Option Char) :
    (c :: a).getLast?.or before = a.getLast?.or (some c) := by
  cases a with
  | nil => rfl
  | cons d a => simp [List.getLast?_cons]

theorem occursAsWordFrom_iff (before : Option Char) (t : Text) : occursAsWordFrom word q before t = true ↔
    ∃ a b, t = a ++ (q ++ b) ∧ Apart word (a.getLast?.or before) ∧ Apart word b.head? := by
  induction t generalizing before with
  | nil =>
    rw [occursAsWordFrom, Bool.and_eq_true, List.isEmpty_iff, Bool.not_eq_true']
    constructor
    · rintro ⟨rfl, hbefore⟩
      exact ⟨[], [], rfl, hbefore, rfl⟩
    · rintro ⟨a, b, ht, hbefore, -⟩
      obtain ⟨rfl, hqb⟩ := List.append_eq_nil_iff.mp ht.symm
      exact ⟨(List.append_eq_nil_iff.mp hqb).1, hbefore⟩
  | cons c cs ih =>
    simp only [occursAsWordFrom, Bool.or_eq_true, Bool.and_eq_true, Bool.not_eq_true', ih]
    constructor
    · rintro (⟨⟨hpre, hbefore⟩, hafter⟩ | ⟨a, b, rfl, hbefore, hafter⟩)
      · obtain ⟨b, hb⟩ := List.isPrefixOf_iff_prefix.mp hpre
        rw [← hb, List.drop_left] at hafter
        exact ⟨[], b, hb.symm, hbefore, hafter⟩
      · refine ⟨c :: a, b, rfl, ?_, hafter⟩
        rw [getLast?_cons_or]
        exact hbefore
    · rintro ⟨a, b, ht, hbefore, hafter⟩
      cases a with
      | nil =>
        refine .inl ⟨⟨List.isPrefixOf_iff_prefix.mpr ⟨b, ht.symm⟩, hbefore⟩, ?_⟩
        rw [ht, List.nil_append, List.drop_left]
        exact hafter
      | cons d a =>
        obtain ⟨rfl, rfl⟩ := List.cons.inj ht
        rw [getLast?_cons_or] at hbefore
        exact .inr ⟨a, b, rfl, hbefore, hafter⟩

theorem occursAsWord_iff {t : Text} : occursAsWord word q t = true ↔
    ∃ a b, t = a ++ (q ++ b) ∧ Apart word a.getLast? ∧ Apart word b.head? := by
  simp [occursAsWord, occursAsWordFrom_iff]

theorem occursAsWord_self (q : Text) : occursAsWord word q q = true :=
  occursAsWord_iff.mpr ⟨[], [], by simp, rfl, rfl⟩

theorem occursAsWord_append_cons {sep : Char} (hsep : word sep = false) (hq : sep ∉ q) (hne : q ≠ [])
    (x y : Text) : occursAsWord word q (x ++ sep :: y) = true ↔
      occursAsWord word q x = true ∨ occursAsWord word q y = true := by
  simp only [occursAsWord_iff]
  constructor
  · rintro ⟨a, b, ht, hbefore, hafter⟩
    rcases List.append_eq_append_iff.mp ht with ⟨s, rfl, hs⟩ | ⟨s, rfl, hs⟩
    · -- the pattern begins behind the left side
      cases s with
      | nil =>
        obtain ⟨d, q', rfl⟩ := List.exists_cons_of_ne_nil hne
        obtain ⟨rfl, -⟩ := List.cons.inj hs
        exact absurd List.mem_cons_self hq
      | cons d s =>
        obtain ⟨rfl, rfl⟩ := List.cons.inj hs
        refine .inr ⟨s, b, rfl, ?_, hafter⟩
        cases s with
        | nil => rfl
        | cons e s => simpa [List.getLast?_append, List.getLast?_cons] using hbefore
    · -- it begins in the left side, and ends there as it has no separator
      rcases List.append_eq_append_iff.mp hs with ⟨s', rfl, hs'⟩ | ⟨s', rfl, hs'⟩
      · refine .inl ⟨a, s', rfl, hbefore, ?_⟩
        cases s' with
        | nil => rfl
        | cons d s' =>
          obtain rfl : b = d :: s' ++ sep :: y := hs'
          exact hafter
      · cases s' with
        | nil => exact .inl ⟨a, [], by simp, hbefore, rfl⟩
        | cons d s' =>
          obtain ⟨rfl, -⟩ := List.cons.inj hs'
          exact absurd (by simp) hq
  · rintro (⟨a, b, rfl, hbefore, hafter⟩ | ⟨a, b, rfl, hbefore, hafter⟩)
    · refine ⟨a, b ++ sep :: y, by simp, hbefore, ?_⟩
      cases b with
      | nil => simpa [Apart] using hsep
      | cons d b => exact hafter
    · refine ⟨x ++ sep :: a, b, by simp, ?_, hafter⟩
      cases a with
      | nil => simpa [Apart] using hsep
      | cons d a => simpa [List.getLast?_append, List.getLast?_cons] using hbefore

theorem occursAsWord_intercalate {sep : Char} (hsep : word sep = false) (hq : sep ∉ q) (hne : q ≠ [])
    (ts : List Text) : occursAsWord word q ([sep].intercalate ts) = true ↔
      ∃ t ∈ ts, occursAsWord word q t = true := by
  induction ts with
  | nil => simp [occursAsWord, occursAsWordFrom, hne]
  | cons t ts ih =>
    cases ts with
    | nil => simp
    | cons t' ts =>
      rw [List.intercalate_cons_cons, List.append_assoc, List.singleton_append,
        occursAsWord_append_cons hsep hq hne, ih]
      simp

end Words

end Text
end KtestCi
