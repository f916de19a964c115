import KtestCi.TextSearch

/-!
# Lists read up to a long gap

A reader goes through a list and gives up in a run of more than `n` elements without
interest. What it keeps, with the uninteresting elements at its end cut off, is the prefix up
to the last interesting element that has no such run in front of it.
-/

namespace KtestCi
namespace GapPrefix

variable {α : Type*} (p : α → Bool) (n : ℕ)

/-- Read until more than `n` elements in a row satisfy `p`; `k` of them have just been read. -/
def upToGap : ℕ → List α → List α
  | _, [] => []
  | k, a :: as =>
    if p a then if k + 1 > n then [] else a :: upToGap (k + 1) as
    else a :: upToGap 0 as

/-- More than `n` elements in a row in front of position `j` satisfy `p`. -/
def GapBefore (l : List α) (j : ℕ) : Prop :=
  ∃ i, i + (n + 1) ≤ j ∧ ∀ m, i ≤ m → m < i + (n + 1) → ∃ a, l[m]? = some a ∧ p a = true

/-- An element of interest that is found. -/
def Shown (l : List α) (j : ℕ) : Prop := (∃ a, l[j]? = some a ∧ p a = false) ∧ ¬ GapBefore p n l j

variable {p n}

theorem gapBefore_iff_infix {l : List α} {j : ℕ} (hj : j ≤ l.length) :
    GapBefore p n l j ↔ List.replicate (n + 1) true <:+: (l.map p).take j := by
  constructor
  · rintro ⟨i, hij, hrun⟩
    refine ⟨(l.map p).take i, ((l.map p).take j).drop (i + (n + 1)), ?_⟩
    have hmid : List.replicate (n + 1) true = (((l.map p).take j).drop i).take (n + 1) := by
      symm
      rw [List.eq_replicate_iff]
      constructor
      · simp only [List.length_take, List.length_drop, List.length_map]
        omega
      · intro b hb
        obtain ⟨m, hm⟩ := List.mem_iff_getElem?.mp hb
        have hlt : m < n + 1 := by
          by_contra hge
          rw [List.getElem?_eq_none (by simp; omega)] at hm
          cases hm
        rw [List.getElem?_take_of_lt hlt, List.getElem?_drop,
          List.getElem?_take_of_lt (by omega), List.getElem?_map] at hm
        obtain ⟨a, ha, hpa⟩ := hrun (i + m) (by omega) (by omega)
        simpa [ha, hpa] using hm.symm
    have hfront : (l.map p).take i = ((l.map p).take j).take i := by
      rw [List.take_take, Nat.min_eq_left (by omega)]
    rw [hmid, hfront, ← List.drop_drop, List.append_assoc, List.take_append_drop,
      List.take_append_drop]
  · rintro ⟨before, after, heq⟩
    have hlen := congrArg List.length heq
    simp only [List.length_append, List.length_replicate, List.length_take, List.length_map] at hlen
    refine ⟨before.length, by omega, ?_⟩
    intro m hm hlt
    have hget : ((l.map p).take j)[m]? = some true := by
      rw [← heq, List.append_assoc, List.getElem?_append_right hm,
        List.getElem?_append_left (by simp; omega), List.getElem?_replicate, if_pos (by omega)]
    rw [List.getElem?_take_of_lt (by omega), List.getElem?_map, Option.map_eq_some_iff] at hget
    exact hget

/-- What is kept is the longest prefix without such a run. The `k` elements that were read
before count as the start of one. -/
theorem upToGap_eq_take (k : ℕ) (hk : k ≤ n) (l : List α) : ∃ m ≤ l.length,
    upToGap p n k l = l.take m ∧ ∀ j ≤ l.length, (j ≤ m ↔
      ¬ List.replicate (n + 1) true <:+: List.replicate k true ++ (l.map p).take j) := by
  have hshort : ∀ k ≤ n, ¬ List.replicate (n + 1) true <:+: List.replicate k true := by
    intro k hk h
    have hlen := h.length_le
    simp only [List.length_replicate] at hlen
    omega
  induction l generalizing k with
  | nil =>
    refine ⟨0, le_rfl, rfl, ?_⟩
    intro j hj
    obtain rfl : j = 0 := by simpa using hj
    simpa using hshort k hk
  | cons a l ih =>
    -- an element that is kept moves the limit up by one
    have hkeep : ∀ k' ≤ n, (∀ j, List.replicate (n + 1) true <:+:
          List.replicate k true ++ ((a :: l).map p).take (j + 1) ↔
        List.replicate (n + 1) true <:+: List.replicate k' true ++ (l.map p).take j) →
        ∃ m ≤ (a :: l).length, a :: upToGap p n k' l = (a :: l).take m ∧
          ∀ j ≤ (a :: l).length, (j ≤ m ↔ ¬ List.replicate (n + 1) true <:+:
            List.replicate k true ++ ((a :: l).map p).take j) := by
      intro k' hk' hgap
      obtain ⟨m, hm, heq, hspec⟩ := ih k' hk'
      refine ⟨m + 1, by simpa using hm, by rw [heq, List.take_succ_cons], ?_⟩
      intro j hj
      cases j with
      | zero => simpa using hshort k hk
      | succ j => rw [hgap, ← hspec j (by simpa using hj), Nat.succ_le_succ_iff]
    rw [upToGap]
    cases hpa : p a with
    | true =>
      have hjoin : ∀ j, List.replicate k true ++ ((a :: l).map p).take (j + 1) =
          List.replicate (k + 1) true ++ (l.map p).take j := by
        intro j
        simp [hpa, List.replicate_succ']
      rw [if_pos rfl]
      split_ifs with hlimit
      · refine ⟨0, Nat.zero_le _, rfl, ?_⟩
        intro j hj
        cases j with
        | zero => simpa using hshort k hk
        | succ j =>
          obtain rfl : k = n := by omega
          rw [hjoin]
          simp [List.infix_append_left]
      · exact hkeep (k + 1) (by omega) (fun j => by rw [hjoin])
    | false =>
      rw [if_neg Bool.false_ne_true]
      refine hkeep 0 (Nat.zero_le n) ?_
      intro j
      have hfalse : false ∉ List.replicate (n + 1) true := by simp
      rw [List.map_cons, hpa, List.take_succ_cons, Text.infix_append_cons_iff hfalse,
        or_iff_right (hshort k hk), List.replicate_zero, List.nil_append]

theorem rdropWhile_eq_take (l : List α) : ∃ k ≤ l.length, l.rdropWhile p = l.take k ∧
    (∀ j a, l[j]? = some a → p a = false → j < k) ∧
    ∀ j, k = j + 1 → ∃ a, l[j]? = some a ∧ p a = false := by
  induction l using List.reverseRecOn with
  | nil => exact ⟨0, le_rfl, rfl, by simp, by simp⟩
  | append_singleton l b ih =>
    cases hpb : p b with
    | true =>
      obtain ⟨k, hk, heq, hbelow, hlast⟩ := ih
      refine ⟨k, by simp; omega, ?_, ?_, ?_⟩
      · rw [List.rdropWhile_concat_pos _ _ _ hpb, heq, List.take_append_of_le_length hk]
      · intro j a ha hpa
        rcases Nat.lt_or_ge j l.length with hlt | hge
        · rw [List.getElem?_append_left hlt] at ha
          exact hbelow j a ha hpa
        · rw [List.getElem?_append_right hge] at ha
          obtain rfl : a = b := List.mem_singleton.mp (List.mem_of_getElem? ha)
          rw [hpb] at hpa
          cases hpa
      · rintro j rfl
        rw [List.getElem?_append_left (by omega)]
        exact hlast j rfl
    | false =>
      have hneg : ¬ p b = true := by simp [hpb]
      refine ⟨l.length + 1, by simp, ?_, ?_, ?_⟩
      · rw [List.rdropWhile_concat_neg _ _ _ hneg, List.take_of_length_le (by simp)]
      · intro j a ha _
        have hlt := (List.getElem?_eq_some_iff.mp ha).1
        simpa using hlt
      · intro j hj
        obtain rfl : j = l.length := by omega
        exact ⟨b, by simp, hpb⟩

/-- An element of interest is kept unless there is a gap in front of it. -/
theorem getElem?_upToGap {l : List α} {j : ℕ} {a : α} (ha : l[j]? = some a) (hpa : p a = false) :
    (upToGap p n 0 l)[j]? = some a ↔ ¬ GapBefore p n l j := by
  obtain ⟨m, hm, hkept, hspec⟩ := upToGap_eq_take 0 (Nat.zero_le n) (p := p) l
  have hlt := (List.getElem?_eq_some_iff.mp ha).1
  have hfalse : false ∉ List.replicate (n + 1) true := by simp
  have htake : (l.map p).take (j + 1) = (l.map p).take j ++ false :: [] := by
    rw [List.take_add_one, List.getElem?_map, ha, Option.map_some, hpa, Option.toList_some]
  have hnil : ¬ List.replicate (n + 1) true <:+: [] := by simp
  have hreached : (upToGap p n 0 l)[j]? = some a ↔ j + 1 ≤ m := by
    rw [hkept, List.getElem?_take]
    split_ifs with hjm
    · simp [ha]; omega
    · simp; omega
  rw [hreached, hspec (j + 1) hlt, gapBefore_iff_infix hlt.le, List.replicate_zero, List.nil_append,
    htake, Text.infix_append_cons_iff hfalse, or_iff_left hnil]

theorem upToGap_isPrefix_self (l : List α) : upToGap p n 0 l <+: l := by
  obtain ⟨m, -, hkept, -⟩ := upToGap_eq_take 0 (Nat.zero_le n) (p := p) l
  exact hkept ▸ List.take_prefix m l

theorem getElem?_of_prefix {l l' : List α} (h : l <+: l') {j : ℕ} {a : α} (ha : l[j]? = some a) :
    l'[j]? = some a := by
  obtain ⟨rest, rfl⟩ := h
  rw [List.getElem?_append_left (List.getElem?_eq_some_iff.mp ha).1, ha]

theorem rdropWhile_upToGap (l : List α) : ∃ k ≤ l.length,
    (upToGap p n 0 l).rdropWhile p = l.take k ∧
    (∀ j, Shown p n l j → j < k) ∧ ∀ j, k = j + 1 → Shown p n l j := by
  obtain ⟨k, hk, htrim, hbelow, hlast⟩ := rdropWhile_eq_take (p := p) (upToGap p n 0 l)
  have hpre := upToGap_isPrefix_self (p := p) (n := n) l
  refine ⟨k, hk.trans hpre.length_le, ?_, ?_, ?_⟩
  · obtain ⟨rest, hrest⟩ := hpre
    rw [htrim]
    conv_rhs => rw [← hrest]
    rw [List.take_append_of_le_length hk]
  · rintro j ⟨⟨a, ha, hpa⟩, hgap⟩
    exact hbelow j a ((getElem?_upToGap ha hpa).mpr hgap) hpa
  · intro j hj
    obtain ⟨a, ha, hpa⟩ := hlast j hj
    have hl := getElem?_of_prefix hpre ha
    exact ⟨⟨a, hl, hpa⟩, (getElem?_upToGap hl hpa).mp ha⟩

theorem shown_map {β : Type*} (f : β → α) (l : List β) (j : ℕ) :
    Shown p n (l.map f) j ↔ Shown (fun b => p (f b)) n l j := by
  simp [Shown, GapBefore]

theorem rdropWhile_congr {q : α → Bool} {l : List α} (h : ∀ a ∈ l, p a = q a) :
    l.rdropWhile p = l.rdropWhile q := by
  induction l using List.reverseRecOn with
  | nil => rfl
  | append_singleton l b ih =>
    rw [List.forall_mem_append] at h
    rw [List.rdropWhile_concat, List.rdropWhile_concat, ih h.1, h.2 b List.mem_cons_self]

theorem rdropWhile_map {β : Type*} (f : β → α) (l : List β) :
    (l.map f).rdropWhile p = (l.rdropWhile (fun b => p (f b))).map f := by
  induction l using List.reverseRecOn with
  | nil => rfl
  | append_singleton l b ih =>
    rw [List.map_append, List.map_singleton, List.rdropWhile_concat, List.rdropWhile_concat, ih]
    split_ifs <;> simp

end GapPrefix
end KtestCi
