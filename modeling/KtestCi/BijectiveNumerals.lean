import Mathlib.Data.List.Shortlex
import Mathlib.Algebra.BigOperators.Group.List.Basic
import Mathlib.Tactic.Ring

/-!
# Numerals without a zero

Words over symbols that stand for the digits from one to the base. Counting through them goes
through the words by length and then in their alphabetical order, so that no two words stand
for one number.
-/

namespace KtestCi
namespace BijectiveNumerals

variable {α : Type*} {b : ℕ} {digit : α → ℕ}

def numeral (b : ℕ) (digit : α → ℕ) (l : List α) : ℕ := l.foldl (fun n a => n * b + digit a) 0

def Numeral (b : ℕ) (digit : α → ℕ) (l : List α) : Prop := ∀ a ∈ l, 1 ≤ digit a ∧ digit a ≤ b

/-- The number of the word of `k` ones, which is the least with `k` digits. -/
def ones (b : ℕ) : ℕ → ℕ
  | 0 => 0
  | k + 1 => b ^ k + ones b k

theorem foldl_eq_numeral (n : ℕ) (l : List α) :
    l.foldl (fun n a => n * b + digit a) n = n * b ^ l.length + numeral b digit l := by
  induction l generalizing n with
  | nil => simp [numeral]
  | cons a l ih =>
    rw [numeral, List.foldl_cons, List.foldl_cons, ih, ih (0 * b + digit a), List.length_cons, pow_succ]
    ring

theorem numeral_cons (a : α) (l : List α) :
    numeral b digit (a :: l) = digit a * b ^ l.length + numeral b digit l := by
  rw [numeral, List.foldl_cons, foldl_eq_numeral, Nat.zero_mul, Nat.zero_add]

theorem numeral_eq_sum (l : List α) :
    numeral b digit l = (l.mapIdx (fun i a => digit a * b ^ (l.length - (i + 1)))).sum := by
  induction l with
  | nil => rfl
  | cons a l ih =>
    rw [numeral_cons, ih, List.mapIdx_cons, List.sum_cons, List.length_cons, Nat.zero_add, Nat.add_sub_cancel]
    have hplaces : (fun i a => digit a * b ^ (l.length - (i + 1))) =
        fun i a => digit a * b ^ (l.length + 1 - (i + 1 + 1)) := by
      funext i a
      rw [Nat.add_sub_add_right]
    rw [hplaces]

theorem ones_succ_eq (k : ℕ) : ones b (k + 1) = ones b k * b + 1 := by
  induction k with
  | zero => simp [ones]
  | succ k ih =>
    calc ones b (k + 2)
      _ = b ^ k * b + (ones b k * b + 1) := by rw [ones, pow_succ, ih]
      _ = ones b (k + 1) * b + 1 := by rw [ones, Nat.add_mul, Nat.add_assoc]

theorem ones_mono {k k' : ℕ} (h : k ≤ k') : ones b k ≤ ones b k' := by
  induction h with
  | refl => exact le_rfl
  | step _ ih =>
    rw [ones]
    omega

theorem ones_le_numeral {l : List α} (h : Numeral b digit l) : ones b l.length ≤ numeral b digit l := by
  induction l with
  | nil => exact le_rfl
  | cons a l ih =>
    obtain ⟨⟨hlow, -⟩, hl⟩ := List.forall_mem_cons.mp h
    rw [numeral_cons, List.length_cons, ones]
    have hhead := Nat.mul_le_mul_right (b ^ l.length) hlow
    have htail := ih hl
    omega

theorem numeral_le {l : List α} (h : Numeral b digit l) : numeral b digit l ≤ ones b l.length * b := by
  induction l with
  | nil => simp [numeral]
  | cons a l ih =>
    obtain ⟨⟨-, hhigh⟩, hl⟩ := List.forall_mem_cons.mp h
    rw [numeral_cons, List.length_cons, ones, Nat.add_mul]
    have hhead := Nat.mul_le_mul_right (b ^ l.length) hhigh
    have htail := ih hl
    rw [Nat.mul_comm b] at hhead
    omega

theorem numeral_lt_of_lex {l l' : List α} (h : Numeral b digit l) (h' : Numeral b digit l')
    (hlen : l.length = l'.length) (hlex : List.Lex (fun a a' => digit a < digit a') l l') :
    numeral b digit l < numeral b digit l' := by
  induction hlex with
  | nil => simp at hlen
  | @cons a l l' hlex ih =>
    have hlen : l.length = l'.length := by simpa using hlen
    have htail := ih (List.forall_mem_cons.mp h).2 (List.forall_mem_cons.mp h').2 hlen
    rw [numeral_cons, numeral_cons, hlen]
    omega
  | @rel a l a' l' hlt =>
    have hlen : l.length = l'.length := by simpa using hlen
    have hhigh := numeral_le (List.forall_mem_cons.mp h).2
    have hlow := ones_le_numeral (List.forall_mem_cons.mp h').2
    -- the digits that follow make up for less than one step of the digit in front
    have hgap := ones_succ_eq (b := b) l.length
    rw [ones] at hgap
    have hstep := Nat.mul_le_mul_right (b ^ l.length) (Nat.succ_le_of_lt hlt)
    rw [Nat.succ_mul] at hstep
    rw [numeral_cons, numeral_cons, ← hlen]
    rw [← hlen] at hlow
    omega

/-- Counting goes through the words by length and then alphabetically. -/
theorem numeral_lt_of_shortlex {l l' : List α} (h : Numeral b digit l) (h' : Numeral b digit l')
    (hlt : List.Shortlex (fun a a' => digit a < digit a') l l') :
    numeral b digit l < numeral b digit l' := by
  rcases List.shortlex_def.mp hlt with hlen | ⟨hlen, hlex⟩
  · calc numeral b digit l
      _ ≤ ones b l.length * b := numeral_le h
      _ < ones b (l.length + 1) := by rw [ones_succ_eq]; omega
      _ ≤ ones b l'.length := ones_mono hlen
      _ ≤ numeral b digit l' := ones_le_numeral h'
  · exact numeral_lt_of_lex h h' hlen hlex

end BijectiveNumerals
end KtestCi
