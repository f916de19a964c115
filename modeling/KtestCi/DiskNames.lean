import KtestCi.BijectiveNumerals
import KtestCi.TextSearch

/-!
# The names the kernel gives its disks

Disks are counted with the letters as digits, without a zero: `a` to `z`, then `aa`. The
number that a name stands for recovers the index, so that two disks never share a name. Every
name is the name of a disk, and the disks are in the order of their names.
-/

namespace KtestCi

def diskLetters : Text := "abcdefghijklmnopqrstuvwxyz".toList

/-- The loop of `disk_name_suffix`. -/
def diskNameLoop (index : ℤ) (out : Text) : Text :=
  if 0 ≤ index then
    diskNameLoop (index / 26 - 1) ((diskLetters.drop (index % 26).toNat).take 1 ++ out)
  else out
termination_by (index + 1).toNat
decreasing_by omega

def diskNameSuffix (index : ℤ) : Text := diskNameLoop index []

/-- The digit a letter stands for, `a` for one. -/
def letterDigit (c : Char) : ℕ := c.toNat - 96

def pushLetter (n : ℕ) (c : Char) : ℕ := n * 26 + letterDigit c

def diskNumber (name : Text) : ℕ := name.foldl pushLetter 0

theorem exists_diskLetter {k : ℕ} (hk : k < 26) :
    ∃ c, (diskLetters.drop k).take 1 = [c] ∧ letterDigit c = k + 1 := by
  have hall : ∀ k : Fin 26, (diskLetters.drop k).take 1 = [Char.ofNat (97 + k)] ∧
      letterDigit (Char.ofNat (97 + k)) = k + 1 := by decide +kernel
  exact ⟨_, hall ⟨k, hk⟩⟩

theorem foldl_diskNameLoop (index : ℤ) (out : Text) (h : -1 ≤ index) :
    (diskNameLoop index out).foldl pushLetter 0 = out.foldl pushLetter (index + 1).toNat := by
  fun_induction diskNameLoop index out with
  | case1 index out hnonneg ih =>
    obtain ⟨c, hc, hdigit⟩ := exists_diskLetter (k := (index % 26).toNat) (by omega)
    rw [ih (by omega), hc, List.singleton_append, List.foldl_cons, pushLetter, hdigit]
    congr 1
    omega
  | case2 index out hneg =>
    have hzero : (index + 1).toNat = 0 := by omega
    rw [hzero]

theorem diskNumber_diskNameSuffix (n : ℕ) : diskNumber (diskNameSuffix n) = n + 1 := by
  rw [diskNumber, diskNameSuffix, foldl_diskNameLoop n [] (by omega)]
  rfl

theorem diskNameSuffix_injective {m n : ℕ} (h : diskNameSuffix m = diskNameSuffix n) : m = n := by
  have hnumber := congrArg diskNumber h
  rw [diskNumber_diskNameSuffix, diskNumber_diskNameSuffix] at hnumber
  omega

open BijectiveNumerals

structure IsDiskName (name : Text) : Prop where
  ne_nil : name ≠ []
  letters : ∀ c ∈ name, 'a' ≤ c ∧ c ≤ 'z'

theorem letterDigit_bounds {c : Char} (h : 'a' ≤ c ∧ c ≤ 'z') : 1 ≤ letterDigit c ∧ letterDigit c ≤ 26 := by
  have hlow : 97 ≤ c.toNat := h.1
  have hhigh : c.toNat ≤ 122 := h.2
  unfold letterDigit
  omega

theorem letterDigit_lt {c c' : Char} (hc : 'a' ≤ c) (h : c < c') : letterDigit c < letterDigit c' := by
  have hlow : 97 ≤ c.toNat := hc
  have hlt : c.toNat < c'.toNat := h
  unfold letterDigit
  omega

theorem numeral_of_letters {name : Text} (h : ∀ c ∈ name, 'a' ≤ c ∧ c ≤ 'z') :
    Numeral 26 letterDigit name := fun c hc => letterDigit_bounds (h c hc)

theorem diskNumber_eq_numeral (name : Text) : diskNumber name = numeral 26 letterDigit name := rfl

theorem shortlex_letterDigit {name name' : Text} (h : ∀ c ∈ name, 'a' ≤ c ∧ c ≤ 'z')
    (hlt : List.Shortlex (· < ·) name name') :
    List.Shortlex (fun c c' => letterDigit c < letterDigit c') name name' := by
  rcases List.shortlex_def.mp hlt with hlen | ⟨hlen, hlex⟩
  · exact .of_length_lt hlen
  · refine .of_lex hlen ?_
    clear hlt hlen
    induction hlex with
    | nil => exact .nil
    | cons _ ih => exact .cons (ih (List.forall_mem_cons.mp h).2)
    | rel hlt => exact .rel (letterDigit_lt (List.forall_mem_cons.mp h).1.1 hlt)

theorem diskNumber_lt {name name' : Text} (h : IsDiskName name) (h' : IsDiskName name')
    (hlt : List.Shortlex (· < ·) name name') : diskNumber name < diskNumber name' := by
  rw [diskNumber_eq_numeral, diskNumber_eq_numeral]
  exact numeral_lt_of_shortlex (numeral_of_letters h.letters) (numeral_of_letters h'.letters)
    (shortlex_letterDigit h.letters hlt)

theorem diskNumber_pos {name : Text} (h : IsDiskName name) : 0 < diskNumber name := by
  have hlen : 1 ≤ name.length := List.length_pos_iff.mpr h.ne_nil
  calc 0
    _ < ones 26 1 := by decide
    _ ≤ ones 26 name.length := ones_mono hlen
    _ ≤ diskNumber name := ones_le_numeral (numeral_of_letters h.letters)

theorem diskNumber_injective {name name' : Text} (h : IsDiskName name) (h' : IsDiskName name')
    (heq : diskNumber name = diskNumber name') : name = name' := by
  refine (List.Shortlex.trichotomous (r := (· < · : Char → Char → Prop))).trichotomous _ _ ?_ ?_
  · intro hlt
    exact absurd heq (diskNumber_lt h h' hlt).ne
  · intro hlt
    exact absurd heq (diskNumber_lt h' h hlt).ne'

theorem letters_diskNameLoop (index : ℤ) (out : Text) (h : ∀ c ∈ out, 'a' ≤ c ∧ c ≤ 'z') :
    ∀ c ∈ diskNameLoop index out, 'a' ≤ c ∧ c ≤ 'z' := by
  have hall : ∀ k : Fin 26, (diskLetters.drop k).take 1 = [Char.ofNat (97 + k)] ∧
      'a' ≤ Char.ofNat (97 + k) ∧ Char.ofNat (97 + k) ≤ 'z' := by decide +kernel
  fun_induction diskNameLoop index out with
  | case1 index out hnonneg ih =>
    obtain ⟨hletter, hbounds⟩ := hall ⟨(index % 26).toNat, by omega⟩
    refine ih ?_
    rw [hletter, List.singleton_append, List.forall_mem_cons]
    exact ⟨hbounds, h⟩
  | case2 index out hneg => exact h

theorem isDiskName_diskNameSuffix (n : ℕ) : IsDiskName (diskNameSuffix n) := by
  refine ⟨?_, letters_diskNameLoop n [] (by simp)⟩
  intro hnil
  have hnumber := diskNumber_diskNameSuffix n
  rw [hnil] at hnumber
  simp [diskNumber] at hnumber

theorem diskNameSuffix_eq_iff {name : Text} (h : IsDiskName name) (n : ℕ) :
    diskNameSuffix n = name ↔ n + 1 = diskNumber name := by
  constructor
  · rintro rfl
    exact (diskNumber_diskNameSuffix n).symm
  · intro hnumber
    apply diskNumber_injective (isDiskName_diskNameSuffix n) h
    rw [diskNumber_diskNameSuffix, hnumber]

theorem diskNameSuffix_lt_iff (m n : ℕ) :
    List.Shortlex (· < ·) (diskNameSuffix m) (diskNameSuffix n) ↔ m < n := by
  have hlt : ∀ {m n : ℕ}, List.Shortlex (· < ·) (diskNameSuffix m) (diskNameSuffix n) → m < n := by
    intro m n h
    have hnumber := diskNumber_lt (isDiskName_diskNameSuffix m) (isDiskName_diskNameSuffix n) h
    rw [diskNumber_diskNameSuffix, diskNumber_diskNameSuffix] at hnumber
    omega
  refine ⟨hlt, ?_⟩
  intro h
  by_contra hnot
  have hsame := (List.Shortlex.trichotomous (r := (· < · : Char → Char → Prop))).trichotomous _ _ hnot
    (fun hgt => absurd (hlt hgt) (by omega))
  have heq := diskNameSuffix_injective hsame
  omega

end KtestCi
