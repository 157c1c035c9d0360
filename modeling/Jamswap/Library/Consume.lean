import Mathlib.Data.List.Perm.Subperm
import Mathlib.Data.List.Nodup

/-!
# Consuming entries of a list, one stored entry per request

`consume stored requests` removes, for each request in turn, the first stored entry equal to it,
and fails as soon as a request finds none. It succeeds exactly when the requests are a
sub-multiset of what is stored (`consume_isSome_iff`), and then the requests and what is left make
up what was stored (`perm_of_consume`), in the stored order (`sublist_of_consume`).

An array cannot drop an entry in the middle of a scan, so a program keeps a flag for each entry and
marks it (`mark`). The entries not marked are the `live` ones; marking for each request in turn
leaves alive what removing leaves (`consume_live`, `live_foldl_mark`).
-/

namespace Jamswap.Library

variable {α : Type*} [DecidableEq α]

/-- Remove one stored entry per request, or fail. -/
def consume : List α → List α → Option (List α)
  | stored, [] => some stored
  | stored, r :: requests => if r ∈ stored then consume (stored.erase r) requests else none

variable {stored requests rest : List α}

section

variable (h : consume stored requests = some rest)

include h

theorem perm_of_consume : stored.Perm (requests ++ rest) := by
  induction requests generalizing stored with
  | nil =>
    rw [consume, Option.some.injEq] at h
    rw [h]
    exact List.Perm.refl _
  | cons r requests ih =>
    rw [consume] at h
    split_ifs at h with hmem
    calc stored.Perm (r :: stored.erase r) := List.perm_cons_erase hmem
      _ |>.Perm (r :: (requests ++ rest)) := (ih h).cons r

theorem sublist_of_consume : rest.Sublist stored := by
  induction requests generalizing stored with
  | nil =>
    rw [consume, Option.some.injEq] at h
    rw [h]
  | cons r requests ih =>
    rw [consume] at h
    split_ifs at h with hmem
    exact (ih h).trans List.erase_sublist

theorem eq_diff_of_consume [BEq α] [LawfulBEq α] : rest = stored.diff requests := by
  obtain rfl : ‹BEq α› = instBEqOfDecidableEq := lawful_beq_subsingleton _ _
  induction requests generalizing stored with
  | nil =>
    rw [consume, Option.some.injEq] at h
    exact h.symm
  | cons r requests ih =>
    rw [consume] at h
    split_ifs at h with hmem
    rw [List.diff_cons]
    exact ih h

theorem subperm_of_consume : requests.Subperm stored :=
  (List.sublist_append_left requests rest).subperm.trans (perm_of_consume h).symm.subperm

end

/-- Enough stored entries are enough to succeed. -/
theorem consume_isSome_iff : (consume stored requests).isSome ↔ requests.Subperm stored := by
  constructor
  · intro h
    obtain ⟨rest, hrest⟩ := Option.isSome_iff_exists.mp h
    exact subperm_of_consume hrest
  · intro h
    induction requests generalizing stored with
    | nil => rfl
    | cons r requests ih =>
      have hmem : r ∈ stored := h.subset List.mem_cons_self
      rw [consume, if_pos hmem]
      have herase := h.erase r
      rw [List.erase_cons_head] at herase
      exact ih herase

theorem consume_isSome_iff_count [BEq α] [LawfulBEq α] :
    (consume stored requests).isSome ↔ ∀ r ∈ requests, requests.count r ≤ stored.count r := by
  obtain rfl : ‹BEq α› = instBEqOfDecidableEq := lawful_beq_subsingleton _ _
  rw [consume_isSome_iff, List.subperm_ext_iff]

/-! ### Marking entries instead of removing them -/

section Marks

variable {β : Type*} {p : β → Bool} {xs : List β} {flags flags' : List Bool}

/-- The entries whose flag is not set. -/
def live : List β → List Bool → List β
  | x :: xs, gone :: flags => if gone then live xs flags else x :: live xs flags
  | _, _ => []

/-- Set the flag of the first live entry with `p`, or fail. -/
def mark (p : β → Bool) : List β → List Bool → Option (List Bool)
  | x :: xs, gone :: flags =>
    if !gone && p x then some (true :: flags) else (mark p xs flags).map (gone :: ·)
  | _, _ => none

theorem live_replicate (xs : List β) : live xs (List.replicate xs.length false) = xs := by
  induction xs with
  | nil => rfl
  | cons x xs ih =>
    rw [List.length_cons, List.replicate_succ, live, if_neg Bool.false_ne_true, ih]

theorem length_mark (h : mark p xs flags = some flags') : flags'.length = flags.length := by
  induction xs generalizing flags flags' with
  | nil => cases h
  | cons x xs ih =>
    cases flags with
    | nil => cases h
    | cons gone flags =>
      rw [mark] at h
      split_ifs at h with hfirst
      · cases h
        rfl
      · obtain ⟨rest, hrest, rfl⟩ := Option.map_eq_some_iff.mp h
        rw [List.length_cons, List.length_cons, ih hrest]

theorem mark_congr {q : β → Bool} (h : ∀ x ∈ xs, p x = q x) :
    mark p xs flags = mark q xs flags := by
  induction xs generalizing flags with
  | nil => rfl
  | cons x xs ih =>
    cases flags with
    | nil => rfl
    | cons gone flags =>
      rw [mark, mark, h x List.mem_cons_self, ih fun y hy ↦ h y (List.mem_cons_of_mem x hy)]

theorem mark_eq_none_iff : mark p xs flags = none ↔ ∀ x ∈ live xs flags, p x = false := by
  induction xs generalizing flags with
  | nil => simp [mark, live]
  | cons x xs ih =>
    cases flags with
    | nil => simp [mark, live]
    | cons gone flags =>
      rw [mark, live]
      cases gone with
      | true => simpa using ih
      | false =>
        cases hx : p x with
        | true => simp [hx]
        | false => simpa [hx] using ih

/-- Marking takes the first entry with `p` out of the live ones. -/
theorem live_mark (h : mark p xs flags = some flags') :
    live xs flags' = (live xs flags).eraseP p := by
  induction xs generalizing flags flags' with
  | nil => cases h
  | cons x xs ih =>
    cases flags with
    | nil => cases h
    | cons gone flags =>
      rw [mark] at h
      split_ifs at h with hfirst
      · cases h
        rw [Bool.and_eq_true, Bool.not_eq_true'] at hfirst
        rw [live, live, if_pos rfl, hfirst.1, if_neg Bool.false_ne_true,
          List.eraseP_cons_of_pos hfirst.2]
      · obtain ⟨rest, hrest, rfl⟩ := Option.map_eq_some_iff.mp h
        rw [live, live, ih hrest]
        cases gone with
        | true => rfl
        | false =>
          have hx : ¬ p x = true := by simpa using hfirst
          rw [if_neg Bool.false_ne_true, if_neg Bool.false_ne_true, List.eraseP_cons_of_neg hx]

/-- Marking for one request after the other, failing at the first that finds nothing, is consuming
from the live entries. -/
theorem consume_live (xs requests : List α) (flags : List Bool) :
    consume (live xs flags) requests =
      (requests.foldlM (fun flags r ↦ mark (fun x ↦ decide (x = r)) xs flags) flags).map
        (live xs) := by
  induction requests generalizing flags with
  | nil => rfl
  | cons r requests ih =>
    rw [consume, List.foldlM_cons]
    cases hmark : mark (fun x ↦ decide (x = r)) xs flags with
    | none =>
      rw [if_neg]
      · rfl
      · intro hmem
        simpa using mark_eq_none_iff.mp hmark r hmem
    | some marked =>
      have hmem : r ∈ live xs flags := by
        by_contra hnot
        have hnone : mark (fun x ↦ decide (x = r)) xs flags = none := by
          refine mark_eq_none_iff.mpr fun x hx ↦ decide_eq_false ?_
          rintro rfl
          exact hnot hx
        rw [hmark] at hnone
        cases hnone
      have herase : (live xs flags).erase r = live xs marked := by
        rw [live_mark hmark, List.erase_eq_eraseP']
        rfl
      rw [if_pos hmem, herase]
      exact ih marked

/-- Marking for one request after the other, passing over those that find nothing. -/
theorem live_foldl_mark {γ : Type*} (p : γ → β → Bool) (xs : List β) (requests : List γ)
    (flags : List Bool) :
    live xs (requests.foldl (fun flags r ↦ (mark (p r) xs flags).getD flags) flags) =
      requests.foldl (fun entries r ↦ entries.eraseP (p r)) (live xs flags) := by
  induction requests generalizing flags with
  | nil => rfl
  | cons r requests ih =>
    rw [List.foldl_cons, List.foldl_cons, ih]
    congr 1
    cases hmark : mark (p r) xs flags with
    | none =>
      refine (List.eraseP_of_forall_not fun x hx ↦ ?_).symm
      simp [mark_eq_none_iff.mp hmark x hx]
    | some marked => exact live_mark hmark

end Marks

end Jamswap.Library
