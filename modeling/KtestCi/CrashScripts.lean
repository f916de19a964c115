import Mathlib.Data.List.Basic

/-!
# Scripts that can stop anywhere

A script runs its commands in order, until one fails or the machine goes down. Then it stays
where it is: a command that was under way may have done a part of its work. A condition is safe
along a script if it holds at every moment up to which the script can have come.
-/

namespace KtestCi
namespace CrashScripts

variable {κ σ : Type*}

/-- What the commands of a script do, and what may be left of one that is cut short. -/
structure Semantics (κ σ : Type*) where
  exec : κ → σ → σ
  Cut : κ → σ → σ → Prop

variable (M : Semantics κ σ)

def finish (ks : List κ) (s : σ) : σ := ks.foldl (fun s k => M.exec k s) s

/-- `R` holds at every moment of a script. -/
def Safe (R : σ → Prop) : List κ → σ → Prop
  | [], s => R s
  | k :: ks, s => R s ∧ (∀ left, M.Cut k s left → R left) ∧ Safe R ks (M.exec k s)

variable {M} {R R' : σ → Prop} {k : κ} {ks ks' : List κ} {s : σ}

@[simp] theorem finish_nil : finish M [] s = s := rfl

@[simp] theorem finish_cons : finish M (k :: ks) s = finish M ks (M.exec k s) := rfl

theorem finish_append : finish M (ks ++ ks') s = finish M ks' (finish M ks s) := List.foldl_append

theorem Safe.now (h : Safe M R ks s) : R s := by
  cases ks with
  | nil => exact h
  | cons k ks => exact h.1

theorem Safe.cut {left : σ} (h : Safe M R (k :: ks) s) (hcut : M.Cut k s left) : R left := h.2.1 left hcut

theorem Safe.next (h : Safe M R (k :: ks) s) : Safe M R ks (M.exec k s) := h.2.2

theorem Safe.mono (h : Safe M R ks s) (hR : ∀ s, R s → R' s) : Safe M R' ks s := by
  induction ks generalizing s with
  | nil => exact hR s h
  | cons k ks ih => exact ⟨hR s h.1, fun left hcut => hR left (h.2.1 left hcut), ih h.2.2⟩

theorem Safe.append (h : Safe M R ks s) (h' : Safe M R ks' (finish M ks s)) : Safe M R (ks ++ ks') s := by
  induction ks generalizing s with
  | nil => exact h'
  | cons k ks ih => exact ⟨h.1, h.2.1, ih h.2.2 h'⟩

theorem Safe.after (h : Safe M R (ks ++ ks') s) : Safe M R ks' (finish M ks s) := by
  induction ks generalizing s with
  | nil => exact h
  | cons k ks ih => exact ih h.next

/-- What every command keeps, even where it is cut short, is safe along a script. -/
theorem safe_of_kept (hkept : ∀ k ∈ ks, ∀ s, R s → (∀ left, M.Cut k s left → R left) ∧ R (M.exec k s))
    (hs : R s) : Safe M R ks s := by
  induction ks generalizing s with
  | nil => exact hs
  | cons k ks ih =>
    rw [List.forall_mem_cons] at hkept
    obtain ⟨hcut, hexec⟩ := hkept.1 s hs
    exact ⟨hs, hcut, ih hkept.2 hexec⟩

theorem finish_of_kept (hkept : ∀ k ∈ ks, ∀ s, R s → R (M.exec k s)) (hs : R s) : R (finish M ks s) := by
  induction ks generalizing s with
  | nil => exact hs
  | cons k ks ih =>
    rw [List.forall_mem_cons] at hkept
    exact ih hkept.2 (hkept.1 s hs)

end CrashScripts
end KtestCi
