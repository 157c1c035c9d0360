import Jamswap.Library.Tally
import Mathlib.Algebra.Order.BigOperators.Group.List
import Mathlib.Tactic.Linarith

/-!
# Checked arithmetic

A computation on `w`-bit signed integers is modelled step by step with `checkSigned`, which fails
when the exact result does not fit. Sums (`sumChecked`) and tallies (`tallyChecked`) succeed with
the exact result when the magnitudes involved add up to less than the range (`sumChecked_eq`,
`tallyChecked_eq`); what a tally adds to that total is bounded by `sum_size_tally_le`.
-/

namespace Jamswap.Library

/-- The result `x` of a step on `w`-bit signed integers, unless it overflows. -/
def checkSigned (w : ℕ) (x : ℤ) : Option ℤ :=
  if -2 ^ (w - 1) ≤ x ∧ x < 2 ^ (w - 1) then some x else none

theorem checkSigned_of_abs_lt {w : ℕ} {x : ℤ} (h : |x| < 2 ^ (w - 1)) :
    checkSigned w x = some x := by
  rw [abs_lt] at h
  exact if_pos ⟨h.1.le, h.2⟩

/-! ### Sums -/

/-- A running sum, each partial sum checked. -/
def sumChecked (w : ℕ) (xs : List ℤ) : Option ℤ :=
  xs.foldlM (fun acc x ↦ checkSigned w (acc + x)) 0

theorem sumChecked_eq {w : ℕ} {xs : List ℤ} (h : (xs.map abs).sum < 2 ^ (w - 1)) :
    sumChecked w xs = some xs.sum := by
  have hfold : ∀ (xs : List ℤ) (acc : ℤ), |acc| + (xs.map abs).sum < 2 ^ (w - 1) →
      xs.foldlM (fun acc x ↦ checkSigned w (acc + x)) acc = some (acc + xs.sum) := by
    intro xs
    induction xs with
    | nil => simp
    | cons x xs ih =>
      intro acc hacc
      rw [List.map_cons, List.sum_cons] at hacc
      have hnonneg : 0 ≤ (xs.map abs).sum := List.sum_nonneg (by simp)
      have htriangle := abs_add_le acc x
      rw [List.foldlM_cons, checkSigned_of_abs_lt (by linarith), List.sum_cons, ← add_assoc]
      exact ih (acc + x) (by linarith)
  have hall := hfold xs 0 (by simpa using h)
  rwa [zero_add] at hall

/-! ### Tallies -/

section Tally

variable {κ M : Type*} [DecidableEq κ] [AddCommMonoid M]

/-- `tally` with the addition checked. -/
def tallyChecked (check : M → Option M) : List (κ × M) → κ → M → Option (List (κ × M))
  | [], k, m => some [(k, m)]
  | (k', m') :: out, k, m =>
    if k' = k then (check (m' + m)).map fun s ↦ (k', s) :: out
    else (tallyChecked check out k m).map ((k', m') :: ·)

theorem tallyChecked_eq {check : M → Option M} {out : List (κ × M)} {k : κ} {m : M}
    (h : ∀ e ∈ tally out k m, check e.2 = some e.2) :
    tallyChecked check out k m = some (tally out k m) := by
  induction out with
  | nil => rfl
  | cons e out ih =>
    rw [tally] at h
    rw [tallyChecked, tally]
    by_cases hkey : e.1 = k
    · rw [if_pos hkey] at h ⊢
      rw [if_pos hkey, h _ List.mem_cons_self]
      rfl
    · rw [if_neg hkey] at h ⊢
      rw [if_neg hkey, ih fun e' he' ↦ h e' (List.mem_cons_of_mem _ he')]
      rfl

/-- A tally grows the total size by at most the size of what it adds. -/
theorem sum_size_tally_le {size : M → ℤ} (hsize : ∀ a b, size (a + b) ≤ size a + size b)
    (out : List (κ × M)) (k : κ) (m : M) :
    ((tally out k m).map fun e ↦ size e.2).sum ≤ (out.map fun e ↦ size e.2).sum + size m := by
  induction out with
  | nil => simp [tally]
  | cons e out ih =>
    rw [tally]
    by_cases hkey : e.1 = k
    · have hadd := hsize e.2 m
      rw [if_pos hkey, List.map_cons, List.sum_cons, List.map_cons, List.sum_cons]
      linarith
    · rw [if_neg hkey, List.map_cons, List.sum_cons, List.map_cons, List.sum_cons]
      linarith

end Tally

end Jamswap.Library
