import Mathlib.Algebra.BigOperators.Group.List.Basic
import Mathlib.Algebra.Ring.Nat
import Mathlib.Data.List.Perm.Subperm

/-!
# Rationing a supply along a priority list

`allot demand xs supply` walks a priority list and gives every claimant the smaller of its demand
and what is left, stopping once nothing is left. Nobody gets more than it asked for
(`allot_le_demand`), the claimants served are a prefix of the list (`isPrefix_allot_fst`), and what
is given out is the smaller of the supply and the total demand (`sum_allot`). The same holds of any
claimants that come before all others (`sum_allot_initial`).
-/

namespace Jamswap.Library

variable {α : Type*}

/-- Serve the claimants in order until the supply is used up. -/
def allot (demand : α → ℕ) : List α → ℕ → List (α × ℕ)
  | [], _ => []
  | x :: xs, supply =>
    if supply = 0 then []
    else (x, min supply (demand x)) :: allot demand xs (supply - min supply (demand x))

variable {demand : α → ℕ} {xs : List α} {supply : ℕ} {a : α × ℕ}

theorem allot_le_demand (h : a ∈ allot demand xs supply) : a.2 ≤ demand a.1 := by
  induction xs generalizing supply with
  | nil => cases h
  | cons x xs ih =>
    rw [allot] at h
    split_ifs at h with hsupply
    · cases h
    · rcases List.mem_cons.mp h with rfl | hrest
      · exact Nat.min_le_right _ _
      · exact ih hrest

theorem isPrefix_allot_fst (demand : α → ℕ) (xs : List α) (supply : ℕ) :
    ((allot demand xs supply).map Prod.fst).IsPrefix xs := by
  induction xs generalizing supply with
  | nil => exact List.nil_prefix
  | cons x xs ih =>
    rw [allot]
    split_ifs with hsupply
    · exact List.nil_prefix
    · rw [List.map_cons]
      exact List.prefix_cons_inj x |>.mpr (ih _)

theorem allot_fst_mem (h : a ∈ allot demand xs supply) : a.1 ∈ xs :=
  (isPrefix_allot_fst demand xs supply).subset (List.mem_map_of_mem h)

theorem sum_allot (demand : α → ℕ) (xs : List α) (supply : ℕ) :
    ((allot demand xs supply).map Prod.snd).sum = min supply (xs.map demand).sum := by
  induction xs generalizing supply with
  | nil => simp [allot]
  | cons x xs ih =>
    rw [allot]
    split_ifs with hsupply
    · simp [hsupply]
    · rw [List.map_cons, List.sum_cons, ih, List.map_cons, List.sum_cons]
      omega

/-- Claimants that come before all others are served first, whatever the others ask for. -/
theorem sum_allot_initial (demand : α → ℕ) {p : α → Bool} (h : xs.Pairwise fun a b ↦ p b → p a)
    (supply : ℕ) :
    (((allot demand xs supply).filter fun a ↦ p a.1).map Prod.snd).sum =
      min supply ((xs.filter p).map demand).sum := by
  induction xs generalizing supply with
  | nil => simp [allot]
  | cons x xs ih =>
    rw [List.pairwise_cons] at h
    rw [allot]
    split_ifs with hsupply
    · simp [hsupply]
    · have hrest := ih h.2 (supply - min supply (demand x))
      cases hp : p x with
      | true =>
        simp only [List.filter_cons, hp, if_true, List.map_cons, List.sum_cons, hrest]
        omega
      | false =>
        have hnone : xs.filter p = [] :=
          List.filter_eq_nil_iff.mpr fun a ha hpa ↦ by simp [h.1 a ha hpa] at hp
        simp only [List.filter_cons, hp, Bool.false_eq_true, if_false, hrest, hnone, List.map_nil,
          List.sum_nil, Nat.min_zero]

end Jamswap.Library
