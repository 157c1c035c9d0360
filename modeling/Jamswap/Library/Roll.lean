import Mathlib.Data.Finset.Card
import Mathlib.Data.List.Nodup

/-!
# A roll of names, numbered from one in the order they were first entered

`Roll.enter` numbers a new name with the next number and leaves a name it has alone. The numbers in
use are an initial segment (`Roll.isSome_nameOf_iff`), and no entry is ever renumbered
(`Roll.nameOf_enter_of_some`).
-/

namespace Jamswap.Library

/-- Distinct names, the first one numbered 1. -/
@[ext]
structure Roll (α : Type*) where
  names : List α
  distinct : names.Nodup

namespace Roll

variable {α : Type*}

def empty : Roll α := ⟨[], List.nodup_nil⟩

/-- The name with a number, if the number is in use. -/
def nameOf (r : Roll α) : ℕ → Option α
  | 0 => none
  | n + 1 => r.names[n]?

theorem nameOf_empty (n : ℕ) : (empty : Roll α).nameOf n = none := by
  cases n <;> rfl

variable {r : Roll α} {n : ℕ} {a : α}

theorem nameOf_eq_some_iff : r.nameOf n = some a ↔ 0 < n ∧ r.names[n - 1]? = some a := by
  cases n with
  | zero => simp [nameOf]
  | succ n => simp [nameOf]

theorem isSome_nameOf_iff (r : Roll α) (n : ℕ) :
    (r.nameOf n).isSome ↔ 1 ≤ n ∧ n ≤ r.names.length := by
  cases n with
  | zero => simp [nameOf]
  | succ n =>
    simp only [nameOf, isSome_getElem?, Nat.le_add_left, true_and]
    exact Nat.lt_iff_add_one_le

theorem nameOf_succ_length (r : Roll α) : r.nameOf (r.names.length + 1) = none :=
  List.getElem?_eq_none le_rfl

theorem mem_iff_exists_nameOf : a ∈ r.names ↔ ∃ n, n ≤ r.names.length ∧ r.nameOf n = some a := by
  rw [List.mem_iff_getElem?]
  constructor
  · rintro ⟨n, hn⟩
    exact ⟨n + 1, (List.getElem?_eq_some_iff.mp hn).1, hn⟩
  · rintro ⟨n, -, hn⟩
    exact ⟨n - 1, (nameOf_eq_some_iff.mp hn).2⟩

/-! ### Entering names -/

variable [DecidableEq α]

def enter (r : Roll α) (a : α) : Roll α :=
  if h : a ∈ r.names then r
  else ⟨r.names ++ [a], by
    rw [List.nodup_append_comm]
    exact List.nodup_cons.mpr ⟨h, r.distinct⟩⟩

theorem enter_of_mem (h : a ∈ r.names) : r.enter a = r := dif_pos h

theorem names_enter_of_notMem (h : a ∉ r.names) : (r.enter a).names = r.names ++ [a] := by
  rw [enter, dif_neg h]

theorem nameOf_enter_of_notMem (h : a ∉ r.names) (n : ℕ) :
    (r.enter a).nameOf n = if n = r.names.length + 1 then some a else r.nameOf n := by
  cases n with
  | zero => simp [nameOf]
  | succ n =>
    simp only [nameOf, names_enter_of_notMem h, List.getElem?_append, List.getElem?_singleton,
      Nat.add_right_cancel_iff]
    rcases lt_trichotomy n r.names.length with hlt | heq | hgt
    · rw [if_pos hlt, if_neg hlt.ne]
    · simp [heq]
    · rw [if_neg (by omega), if_neg (by omega), if_neg (by omega),
        List.getElem?_eq_none (by omega)]

theorem nameOf_enter_of_some {b : α} (h : r.nameOf n = some b) (a : α) :
    (r.enter a).nameOf n = some b := by
  by_cases ha : a ∈ r.names
  · rwa [enter_of_mem ha]
  · have hused := (r.isSome_nameOf_iff n).mp (by rw [h]; rfl)
    rw [nameOf_enter_of_notMem ha, if_neg (by omega), h]

theorem toFinset_enter (r : Roll α) (a : α) :
    (r.enter a).names.toFinset = insert a r.names.toFinset := by
  by_cases ha : a ∈ r.names
  · rw [enter_of_mem ha, Finset.insert_eq_of_mem (List.mem_toFinset.mpr ha)]
  · rw [names_enter_of_notMem ha, List.toFinset_append, Finset.union_comm]
    rfl

theorem card_toFinset (r : Roll α) : r.names.toFinset.card = r.names.length :=
  List.toFinset_card_of_nodup r.distinct

/-- The roll after a list of names, in the order they are met. -/
def enterAll (r : Roll α) (as : List α) : Roll α := as.foldl enter r

theorem toFinset_enterAll (r : Roll α) (as : List α) :
    (r.enterAll as).names.toFinset = r.names.toFinset ∪ as.toFinset := by
  induction as generalizing r with
  | nil => simp [enterAll]
  | cons a as ih =>
    rw [enterAll, List.foldl_cons, ← enterAll, ih, toFinset_enter, List.toFinset_cons,
      Finset.insert_union, Finset.union_insert]

theorem length_le_length_enterAll (r : Roll α) (as : List α) :
    r.names.length ≤ (r.enterAll as).names.length := by
  rw [← card_toFinset, ← card_toFinset, toFinset_enterAll]
  exact Finset.card_le_card Finset.subset_union_left

theorem nameOf_enterAll_of_some {b : α} (h : r.nameOf n = some b) (as : List α) :
    (r.enterAll as).nameOf n = some b :=
  List.foldlRecOn (motive := fun r : Roll α ↦ r.nameOf n = some b) as enter h
    fun _ h a _ ↦ nameOf_enter_of_some h a

end Roll

end Jamswap.Library
