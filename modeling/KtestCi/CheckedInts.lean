import Mathlib.Algebra.Order.Ring.Int

/-!
# Checked machine arithmetic

Casts and sums of 64-bit numbers that give a result only if it is the exact one.
-/

namespace KtestCi

def castInt64 (a : UInt64) : Option Int64 := if a.toNat < 2 ^ 63 then some a.toInt64 else none

def addUInt64 (a b : UInt64) : Option UInt64 := if a.toNat + b.toNat < 2 ^ 64 then some (a + b) else none

def addInt64 (a b : Int64) : Option Int64 :=
  if -2 ^ 63 ≤ a.toInt + b.toInt ∧ a.toInt + b.toInt < 2 ^ 63 then some (a + b) else none

theorem toInt_toInt64 {a : UInt64} (h : a.toNat < 2 ^ 63) : a.toInt64.toInt = a.toNat := by
  have hof : a.toInt64 = Int64.ofNat a.toNat := by
    rw [← UInt64.toInt64_ofNat', UInt64.ofNat_toNat]
  rw [hof, Int64.toInt_ofNat_of_lt h]

theorem castInt64_eq_some {a : UInt64} {c : Int64} : castInt64 a = some c ↔ c.toInt = a.toNat := by
  rw [castInt64]
  split_ifs with h
  · rw [Option.some.injEq, ← Int64.toInt_inj, toInt_toInt64 h, eq_comm]
  · have hc := c.toInt_lt
    simp only [false_iff]
    omega

theorem addUInt64_eq_some {a b c : UInt64} :
    addUInt64 a b = some c ↔ c.toNat = a.toNat + b.toNat := by
  rw [addUInt64]
  split_ifs with h
  · rw [Option.some.injEq, ← UInt64.toNat_inj, UInt64.toNat_add, Nat.mod_eq_of_lt h, eq_comm]
  · have hc := c.toNat_lt
    simp only [false_iff]
    omega

theorem addInt64_eq_some {a b c : Int64} : addInt64 a b = some c ↔ c.toInt = a.toInt + b.toInt := by
  rw [addInt64]
  split_ifs with h
  · rw [Option.some.injEq, ← Int64.toInt_inj, Int64.toInt_add, Int.bmod_eq_of_le h.1 h.2, eq_comm]
  · have hl := c.le_toInt
    have hu := c.toInt_lt
    simp only [false_iff]
    omega

/-! A checked result is the machine's own. -/

theorem eq_of_castInt64 {a : UInt64} {c : Int64} (h : castInt64 a = some c) : c = a.toInt64 := by
  rw [castInt64] at h
  split_ifs at h
  exact (Option.some.inj h).symm

theorem eq_of_addUInt64 {a b c : UInt64} (h : addUInt64 a b = some c) : c = a + b := by
  rw [addUInt64] at h
  split_ifs at h
  exact (Option.some.inj h).symm

theorem eq_of_addInt64 {a b c : Int64} (h : addInt64 a b = some c) : c = a + b := by
  rw [addInt64] at h
  split_ifs at h
  exact (Option.some.inj h).symm

theorem exists_toInt_eq {n : ℕ} (h : n < 2 ^ 63) : ∃ c : Int64, c.toInt = n :=
  ⟨Int64.ofNat n, Int64.toInt_ofNat_of_lt h⟩

end KtestCi
