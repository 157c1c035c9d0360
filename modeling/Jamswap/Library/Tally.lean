import Mathlib.Algebra.BigOperators.Group.Finset.Basic
import Mathlib.Algebra.BigOperators.Pi
import Mathlib.Algebra.Ring.Nat

/-!
# Tallies: totals kept per key in an association list

`tally out k m` adds `m` to the entry of `k`, appending one when there is none. `amount out k` is
the running total of `k`. Tallying keeps the keys distinct (`nodup_tally`), changes the amount of
one key only (`amount_tally`), and the amounts over all keys add up to the sum of the entries
(`sum_amount`). `sum_update_add` is the same bookkeeping for totals kept in a function.
-/

namespace Jamswap.Library

variable {κ M : Type*} [DecidableEq κ] [AddCommMonoid M]

/-- Add `m` to the entry of `k`, or append one. -/
def tally : List (κ × M) → κ → M → List (κ × M)
  | [], k, m => [(k, m)]
  | (k', m') :: out, k, m => if k' = k then (k', m' + m) :: out else (k', m') :: tally out k m

/-- The total kept for `k`. -/
def amount (out : List (κ × M)) (k : κ) : M := ((out.filter fun e ↦ e.1 = k).map Prod.snd).sum

@[simp] theorem amount_nil (k : κ) : amount ([] : List (κ × M)) k = 0 := rfl

theorem amount_cons (e : κ × M) (out : List (κ × M)) (k : κ) :
    amount (e :: out) k = (if e.1 = k then e.2 else 0) + amount out k := by
  unfold amount
  by_cases h : e.1 = k
  · simp [h]
  · simp [h]

theorem amount_append (out out' : List (κ × M)) (k : κ) :
    amount (out ++ out') k = amount out k + amount out' k := by
  rw [amount, List.filter_append, List.map_append, List.sum_append]
  rfl

theorem amount_tally (out : List (κ × M)) (k k' : κ) (m : M) :
    amount (tally out k m) k' = amount out k' + if k' = k then m else 0 := by
  induction out with
  | nil => simp [tally, amount_cons, eq_comm]
  | cons e out ih =>
    obtain ⟨key, value⟩ := e
    rw [tally]
    by_cases hkey : key = k
    · subst hkey
      rw [if_pos rfl, amount_cons, amount_cons]
      by_cases hk' : key = k'
      · subst hk'
        rw [if_pos rfl, if_pos rfl, if_pos rfl]
        exact add_right_comm value m _
      · rw [if_neg hk', if_neg hk', if_neg (Ne.symm hk'), add_zero]
    · rw [if_neg hkey, amount_cons, amount_cons, ih, add_assoc]

theorem sum_snd_tally (out : List (κ × M)) (k : κ) (m : M) :
    ((tally out k m).map Prod.snd).sum = (out.map Prod.snd).sum + m := by
  induction out with
  | nil => simp [tally]
  | cons e out ih =>
    rw [tally]
    by_cases hkey : e.1 = k
    · rw [if_pos hkey, List.map_cons, List.sum_cons, List.map_cons, List.sum_cons]
      exact add_right_comm e.2 m _
    · rw [if_neg hkey, List.map_cons, List.sum_cons, ih, List.map_cons, List.sum_cons, add_assoc]

variable {out : List (κ × M)}

theorem map_fst_tally (out : List (κ × M)) (k : κ) (m : M) : (tally out k m).map Prod.fst =
    if k ∈ out.map Prod.fst then out.map Prod.fst else out.map Prod.fst ++ [k] := by
  induction out with
  | nil => rfl
  | cons e out ih =>
    rw [tally]
    by_cases hkey : e.1 = k
    · simp [hkey]
    · rw [if_neg hkey, List.map_cons, ih]
      simp only [List.map_cons, List.mem_cons, Ne.symm hkey, false_or]
      split_ifs <;> rfl

theorem nodup_tally (h : (out.map Prod.fst).Nodup) (k : κ) (m : M) :
    ((tally out k m).map Prod.fst).Nodup := by
  rw [map_fst_tally]
  split_ifs with hmem
  · exact h
  · exact List.concat_eq_append ▸ h.concat hmem

theorem amount_of_notMem {k : κ} (h : k ∉ out.map Prod.fst) : amount out k = 0 := by
  unfold amount
  have hfilter : (out.filter fun e ↦ e.1 = k) = [] := by
    refine List.filter_eq_nil_iff.mpr fun e he heq ↦ ?_
    rw [decide_eq_true_eq] at heq
    exact h (heq ▸ List.mem_map_of_mem he)
  rw [hfilter]
  rfl

/-- With distinct keys, an entry holds its key's amount. -/
theorem amount_of_mem (h : (out.map Prod.fst).Nodup) {e : κ × M} (he : e ∈ out) :
    amount out e.1 = e.2 := by
  induction out with
  | nil => cases he
  | cons e' out ih =>
    rw [List.map_cons, List.nodup_cons] at h
    rw [amount_cons]
    rcases List.mem_cons.mp he with rfl | hmem
    · rw [if_pos rfl, amount_of_notMem h.1, add_zero]
    · have hne : e'.1 ≠ e.1 := by
        rintro heq
        exact h.1 (heq ▸ List.mem_map_of_mem hmem)
      rw [if_neg hne, zero_add, ih h.2 hmem]

/-- The amounts over all keys add up to the entries. -/
theorem sum_amount [Fintype κ] (out : List (κ × M)) :
    ∑ k, amount out k = (out.map Prod.snd).sum := by
  induction out with
  | nil => simp
  | cons e out ih =>
    simp only [amount_cons, Finset.sum_add_distrib, Finset.sum_ite_eq, Finset.mem_univ, if_true,
      ih, List.map_cons, List.sum_cons]

/-- The amounts of a set of keys add up to the entries under those keys. -/
theorem sum_map_amount {keys : List κ} (hkeys : keys.Nodup) (out : List (κ × M)) :
    (keys.map (amount out)).sum = ((out.filter fun e ↦ e.1 ∈ keys).map Prod.snd).sum := by
  rw [← List.sum_toFinset _ hkeys]
  induction out with
  | nil => exact Finset.sum_eq_zero fun k _ ↦ amount_nil k
  | cons e out ih =>
    simp only [amount_cons, Finset.sum_add_distrib, Finset.sum_ite_eq, List.mem_toFinset, ih]
    by_cases hmem : e.1 ∈ keys
    · simp [hmem]
    · simp [hmem]

/-- Two ways to pick entries differ in total by what only one of them picks. -/
theorem sum_filter_add_sum_filter {α : Type*} (xs : List α) (f : α → ℕ) (p q : α → Bool) :
    ((xs.filter q).map f).sum + ((xs.filter fun x ↦ p x && !q x).map f).sum =
      ((xs.filter p).map f).sum + ((xs.filter fun x ↦ q x && !p x).map f).sum := by
  induction xs with
  | nil => rfl
  | cons x xs ih =>
    cases hp : p x <;> cases hq : q x <;> simp [hp, hq] <;> omega

/-- Changing one value changes the sum of all by as much. -/
theorem sum_update_add {κ : Type*} [DecidableEq κ] [Fintype κ] (f : κ → ℕ) (k : κ) (v : ℕ) :
    ∑ x, Function.update f k v x + f k = ∑ x, f x + v := by
  rw [Finset.sum_update_of_mem (Finset.mem_univ k), Finset.sdiff_singleton_eq_erase,
    ← Finset.add_sum_erase _ f (Finset.mem_univ k), Nat.add_comm v, Nat.add_comm (f k),
    Nat.add_right_comm]

end Jamswap.Library
