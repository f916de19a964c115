import Mathlib.Data.List.Sort
import Mathlib.Data.List.Nodup

/-!
# Keeping the first element for every key

Filtering a list through the set of keys already seen keeps, for every key, the first
element that has it. On a sorted list this is a least element for its key, and cutting
the filtered list short drops only keys that are no better than every kept one.
-/

namespace KtestCi
namespace RetainFirst

variable {α κ : Type*} [DecidableEq κ] (key : α → κ)

/-- Keep an element iff its key is new, and then remember the key. -/
def retain : List κ → List α → List α
  | _, [] => []
  | seen, a :: as => if key a ∈ seen then retain seen as else a :: retain (key a :: seen) as

/-- The first element for every key. -/
def retainFirst (as : List α) : List α := retain key [] as

theorem retain_sublist (seen : List κ) (as : List α) : (retain key seen as).Sublist as := by
  induction as generalizing seen with
  | nil => exact List.Sublist.refl []
  | cons a as ih =>
    unfold retain
    split_ifs
    · exact (ih seen).cons a
    · exact (ih _).cons_cons a

theorem key_notMem_of_mem_retain {seen : List κ} {as : List α} {a : α}
    (h : a ∈ retain key seen as) : key a ∉ seen := by
  induction as generalizing seen with
  | nil => simp [retain] at h
  | cons b as ih =>
    unfold retain at h
    split_ifs at h with hb
    · exact ih h
    · rcases List.mem_cons.mp h with rfl | h
      · exact hb
      · exact fun hm => ih h (List.mem_cons_of_mem _ hm)

theorem retain_nodup (seen : List κ) (as : List α) : ((retain key seen as).map key).Nodup := by
  induction as generalizing seen with
  | nil => simp [retain]
  | cons a as ih =>
    unfold retain
    split_ifs
    · exact ih seen
    · rw [List.map_cons, List.nodup_cons]
      refine ⟨?_, ih _⟩
      intro hm
      obtain ⟨b, hb, hkey⟩ := List.mem_map.mp hm
      exact key_notMem_of_mem_retain key hb (hkey ▸ List.mem_cons_self)

/-- Every element not shadowed by an already seen key has a kept representative, which
is the element itself or stands before it. -/
theorem exists_retain_of_mem {R : α → α → Prop} {seen : List κ} {as : List α}
    (hR : ∀ a ∈ as, R a a) (hsorted : as.Pairwise R) {a : α} (ha : a ∈ as) (hseen : key a ∉ seen) :
    ∃ b ∈ retain key seen as, key b = key a ∧ R b a := by
  induction as generalizing seen with
  | nil => simp at ha
  | cons c as ih =>
    obtain ⟨hc, hsorted⟩ := List.pairwise_cons.mp hsorted
    have hR' : ∀ a ∈ as, R a a := fun a ha => hR a (List.mem_cons_of_mem _ ha)
    unfold retain
    split_ifs with hcs
    · rcases List.mem_cons.mp ha with rfl | ha
      · exact absurd hcs hseen
      · exact ih hR' hsorted ha hseen
    · by_cases hkey : key a = key c
      · refine ⟨c, List.mem_cons_self, hkey.symm, ?_⟩
        rcases List.mem_cons.mp ha with rfl | ha
        · exact hR a List.mem_cons_self
        · exact hc a ha
      · rcases List.mem_cons.mp ha with rfl | ha
        · exact absurd rfl hkey
        · have hnew : key a ∉ key c :: seen := by simp [hkey, hseen]
          obtain ⟨b, hb, hkb⟩ := ih hR' hsorted ha hnew
          exact ⟨b, List.mem_cons_of_mem _ hb, hkb⟩

theorem retainFirst_sublist (as : List α) : (retainFirst key as).Sublist as :=
  retain_sublist key [] as

theorem mem_of_mem_retainFirst {as : List α} {a : α} (h : a ∈ retainFirst key as) : a ∈ as :=
  (retainFirst_sublist key as).subset h

theorem retainFirst_nodup (as : List α) : ((retainFirst key as).map key).Nodup :=
  retain_nodup key [] as

theorem exists_retainFirst {R : α → α → Prop} {as : List α} (hR : ∀ a, R a a)
    (hsorted : as.Pairwise R) {a : α} (ha : a ∈ as) :
    ∃ b ∈ retainFirst key as, key b = key a ∧ R b a :=
  exists_retain_of_mem key (fun a _ => hR a) hsorted ha (by simp)

theorem retainFirst_le {R : α → α → Prop} {as : List α} (hR : ∀ a, R a a)
    (hsorted : as.Pairwise R) {a b : α} (hb : b ∈ retainFirst key as) (ha : a ∈ as)
    (hkey : key a = key b) : R b a := by
  obtain ⟨c, hc, hck, hca⟩ := exists_retainFirst key hR hsorted ha
  have hcb : c = b := List.inj_on_of_nodup_map (retainFirst_nodup key as) hc hb (hck.trans hkey)
  exact hcb ▸ hca

/-- A key that is cut off leaves a full list of elements that are all at least as good. -/
theorem take_full_of_missing {R : α → α → Prop} {as : List α} (hR : ∀ a, R a a)
    (htrans : ∀ a b c, R a b → R b c → R a c) (hsorted : as.Pairwise R) (n : ℕ) {a : α}
    (ha : a ∈ as) (hmissing : ∀ b ∈ (retainFirst key as).take n, key b ≠ key a) :
    ((retainFirst key as).take n).length = n ∧ ∀ b ∈ (retainFirst key as).take n, R b a := by
  obtain ⟨c, hc, hck, hca⟩ := exists_retainFirst key hR hsorted ha
  have hdrop : c ∈ (retainFirst key as).drop n := by
    rw [← List.take_append_drop n (retainFirst key as), List.mem_append] at hc
    exact hc.resolve_left (fun h => hmissing c h hck)
  have hlen : n < (retainFirst key as).length := by
    by_contra hle
    rw [List.drop_eq_nil_of_le (by omega)] at hdrop
    simp at hdrop
  refine ⟨by simp; omega, ?_⟩
  intro b hb
  have hpair : (retainFirst key as).Pairwise R := hsorted.sublist (retainFirst_sublist key as)
  rw [← List.take_append_drop n (retainFirst key as), List.pairwise_append] at hpair
  exact htrans b c a (hpair.2.2 b hb c hdrop) hca

end RetainFirst
end KtestCi
