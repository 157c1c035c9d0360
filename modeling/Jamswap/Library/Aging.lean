import Mathlib.Data.List.Perm.Subperm
import Mathlib.Data.List.Lattice

/-!
# Aging entries

An age index lists entries with a stamp each, oldest copy first. Entries leave it in two ways: the
oldest copy of a key is dropped (`dropOldest`), or everything whose stamp has died is. For each key
both take copies off the front of its stamps (`stampsOf`): the first always
(`stampsOf_dropOldest`), the second when stamps die in the order they were given
(`stampsOf_filter_live`). So a key's copies come and go first in, first out.
-/

namespace Jamswap.Library

variable {κ τ : Type*} [BEq κ]

/-- The stamps of a key's copies, oldest first. -/
def stampsOf (idx : List (κ × τ)) (k : κ) : List τ := (idx.filter fun c ↦ c.1 == k).map Prod.snd

/-- Drop the oldest copy of each target in turn. -/
def dropOldest (idx : List (κ × τ)) (targets : List κ) : List (κ × τ) :=
  targets.foldl (fun idx t ↦ idx.eraseP fun c ↦ c.1 == t) idx

theorem length_stampsOf (idx : List (κ × τ)) (k : κ) :
    (stampsOf idx k).length = (idx.map Prod.fst).count k := by
  rw [stampsOf, List.length_map, List.count, List.countP_map, List.countP_eq_length_filter]
  rfl

theorem stampsOf_append (idx idx' : List (κ × τ)) (k : κ) :
    stampsOf (idx ++ idx') k = stampsOf idx k ++ stampsOf idx' k := by
  rw [stampsOf, List.filter_append, List.map_append]
  rfl

theorem stampsOf_cons (c : κ × τ) (idx : List (κ × τ)) (k : κ) :
    stampsOf (c :: idx) k = if c.1 == k then c.2 :: stampsOf idx k else stampsOf idx k := by
  cases h : c.1 == k with
  | true | false => simp [stampsOf, h]

theorem pairwise_stampsOf {idx : List (κ × τ)} {R : τ → τ → Prop}
    (h : idx.Pairwise fun a b ↦ R a.2 b.2) (k : κ) : (stampsOf idx k).Pairwise R := by
  rw [stampsOf, List.pairwise_map]
  exact h.sublist List.filter_sublist

/-! ### Reaping dead copies -/

variable (dead : τ → Bool)

theorem count_dead (idx : List (κ × τ)) (k : κ) :
    ((idx.filter fun c ↦ dead c.2).map Prod.fst).count k = (stampsOf idx k).countP dead := by
  rw [List.count, List.countP_map, List.countP_filter, stampsOf, List.countP_map,
    List.countP_filter]
  exact List.countP_congr fun c _ ↦ by simp [and_comm]

omit [BEq κ] in
/-- Dead and live copies make up the index. -/
theorem perm_dead_live (idx : List (κ × τ)) :
    ((idx.filter fun c ↦ dead c.2).map Prod.fst ++
      (idx.filter fun c ↦ !dead c.2).map Prod.fst).Perm (idx.map Prod.fst) := by
  rw [← List.map_append]
  exact (List.filter_append_perm (fun c : κ × τ ↦ dead c.2) idx).map Prod.fst

variable {dead}

omit [BEq κ] in
/-- In an index whose stamps die in order, the dead copies come first. -/
theorem filter_dead_append_live {idx : List (κ × τ)}
    (h : idx.Pairwise fun a b ↦ dead b.2 → dead a.2) :
    (idx.filter fun c ↦ dead c.2) ++ (idx.filter fun c ↦ !dead c.2) = idx := by
  induction idx with
  | nil => rfl
  | cons c idx ih =>
    rw [List.pairwise_cons] at h
    cases hc : dead c.2 with
    | true => simp [hc, ih h.2]
    | false =>
      have hlive : ∀ c' ∈ idx, dead c'.2 = false := fun c' hc' ↦
        Bool.eq_false_iff.mpr fun hdead ↦ by simp [h.1 c' hc' hdead] at hc
      have hnone : (idx.filter fun c ↦ dead c.2) = [] :=
        List.filter_eq_nil_iff.mpr fun c' hc' ↦ by simp [hlive c' hc']
      have hall : (idx.filter fun c ↦ !dead c.2) = idx :=
        List.filter_eq_self.mpr fun c' hc' ↦ by simp [hlive c' hc']
      simp [hc, hnone, hall]

/-- How many entries a walk from the front drops, if it stops at the first live one and takes at
most `steps` steps. -/
def frontDead {α : Type*} (dead : α → Bool) (steps : ℕ) (q : List α) : ℕ :=
  min steps (q.takeWhile dead).length

section Front

variable {α : Type*} {dead : α → Bool} {steps : ℕ} {x : α} {q : List α}

theorem frontDead_cons_dead (h : dead x = true) :
    frontDead dead (steps + 1) (x :: q) = frontDead dead steps q + 1 := by
  rw [frontDead, List.takeWhile_cons_of_pos h, List.length_cons, Nat.succ_min_succ, frontDead]

theorem frontDead_cons_live (h : dead x = false) : frontDead dead steps (x :: q) = 0 := by
  rw [frontDead, List.takeWhile_cons_of_neg (by simp [h]), List.length_nil, Nat.min_zero]

theorem frontDead_le_length (dead : α → Bool) (steps : ℕ) (q : List α) :
    frontDead dead steps q ≤ q.length :=
  Nat.le_trans (Nat.min_le_right _ _) (List.takeWhile_prefix dead).length_le

theorem takeWhile_stops (dead : α → Bool) (q : List α) :
    (q.takeWhile dead).length = q.length ∨
      ∃ x, q[(q.takeWhile dead).length]? = some x ∧ dead x = false := by
  induction q with
  | nil => exact Or.inl rfl
  | cons x q ih =>
    cases hx : dead x with
    | false => exact Or.inr ⟨x, by simp [hx], hx⟩
    | true =>
      rw [List.takeWhile_cons_of_pos hx, List.length_cons, List.length_cons,
        Nat.add_right_cancel_iff, List.getElem?_cons_succ]
      exact ih

/-- A walk that stops early has reached the end or a live entry. -/
theorem live_of_frontDead_lt (h : frontDead dead steps q < steps) :
    frontDead dead steps q = q.length ∨
      ∃ x, q[frontDead dead steps q]? = some x ∧ dead x = false := by
  have hcount : frontDead dead steps q = (q.takeWhile dead).length := by
    unfold frontDead at h ⊢
    omega
  rw [hcount]
  exact takeWhile_stops dead q

end Front

/-- Stamps that die in order die from the front. -/
theorem filter_live_eq_drop {stamps : List τ} (h : stamps.Pairwise fun a b ↦ dead b → dead a) :
    (stamps.filter fun s ↦ !dead s) = stamps.drop (stamps.countP dead) := by
  induction stamps with
  | nil => rfl
  | cons s stamps ih =>
    rw [List.pairwise_cons] at h
    cases hs : dead s with
    | true => simp [hs, ih h.2]
    | false =>
      have hnone : ∀ s' ∈ stamps, dead s' = false := fun s' hs' ↦
        Bool.eq_false_iff.mpr fun hdead ↦ by simp [h.1 s' hs' hdead] at hs
      have hcount : stamps.countP dead = 0 :=
        List.countP_eq_zero.mpr fun s' hs' ↦ by simp [hnone s' hs']
      have hlive : (stamps.filter fun s ↦ !dead s) = stamps :=
        List.filter_eq_self.mpr fun s' hs' ↦ by simp [hnone s' hs']
      simp [hs, hcount, hlive]

theorem dead_of_mem_take {stamps : List τ} (h : stamps.Pairwise fun a b ↦ dead b → dead a) {s : τ}
    (hs : s ∈ stamps.take (stamps.countP dead)) : dead s = true := by
  induction stamps with
  | nil => simp at hs
  | cons s' stamps ih =>
    rw [List.pairwise_cons] at h
    cases hdead : dead s' with
    | true =>
      rw [List.countP_cons_of_pos hdead, List.take_succ_cons, List.mem_cons] at hs
      rcases hs with rfl | hs
      · exact hdead
      · exact ih h.2 hs
    | false =>
      have hcount : stamps.countP dead = 0 := List.countP_eq_zero.mpr fun a ha hdead' ↦ by
        simp [h.1 a ha hdead'] at hdead
      simp [hdead, hcount] at hs

/-- Reaping takes a key's dead copies off the front of its stamps. -/
theorem stampsOf_filter_live {idx : List (κ × τ)}
    (h : idx.Pairwise fun a b ↦ dead b.2 → dead a.2) (k : κ) :
    stampsOf (idx.filter fun c ↦ !dead c.2) k =
      (stampsOf idx k).drop ((stampsOf idx k).countP dead) := by
  rw [← filter_live_eq_drop (pairwise_stampsOf (R := fun a b ↦ dead b → dead a) h k), stampsOf,
    stampsOf, List.filter_map, List.filter_filter, List.filter_filter]
  refine congrArg (List.map Prod.snd) (List.filter_congr fun c _ ↦ ?_)
  exact Bool.and_comm _ _

/-! ### Dropping the oldest copies -/

theorem dropOldest_sublist (idx : List (κ × τ)) (targets : List κ) :
    (dropOldest idx targets).Sublist idx :=
  List.foldlRecOn (motive := (List.Sublist · idx)) targets _ (List.Sublist.refl _)
    fun _ h _ _ ↦ List.eraseP_sublist.trans h

theorem map_fst_eraseP (idx : List (κ × τ)) (t : κ) :
    (idx.eraseP fun c ↦ c.1 == t).map Prod.fst = (idx.map Prod.fst).erase t := by
  rw [List.erase_eq_eraseP', List.eraseP_map]
  rfl

variable [LawfulBEq κ]

theorem append_diff_left (entries entries' : List κ) :
    (entries ++ entries').diff entries = entries' := by
  induction entries with
  | nil => rfl
  | cons e entries ih => rw [List.cons_append, List.diff_cons, List.erase_cons_head, ih]

theorem map_fst_dropOldest (idx : List (κ × τ)) (targets : List κ) :
    (dropOldest idx targets).map Prod.fst = (idx.map Prod.fst).diff targets := by
  induction targets generalizing idx with
  | nil => rfl
  | cons t targets ih =>
    rw [List.diff_cons, ← map_fst_eraseP]
    exact ih _

theorem stampsOf_eraseP (idx : List (κ × τ)) (t k : κ) :
    stampsOf (idx.eraseP fun c ↦ c.1 == t) k =
      if t == k then (stampsOf idx k).tail else stampsOf idx k := by
  induction idx with
  | nil => simp [stampsOf]
  | cons c idx ih =>
    rw [List.eraseP_cons, stampsOf_cons]
    by_cases hc : c.1 = t
    · subst hc
      by_cases hk : c.1 = k
      · simp [hk]
      · simp [beq_false_of_ne hk]
    · rw [beq_false_of_ne hc, cond_false, stampsOf_cons, ih]
      by_cases hk : t = k
      · subst hk
        simp [beq_false_of_ne hc]
      · simp [beq_false_of_ne hk]

theorem stampsOf_dropOldest (idx : List (κ × τ)) (targets : List κ) (k : κ) :
    stampsOf (dropOldest idx targets) k = (stampsOf idx k).drop (targets.count k) := by
  induction targets generalizing idx with
  | nil => rfl
  | cons t targets ih =>
    have hstep := ih (idx.eraseP fun c ↦ c.1 == t)
    rw [stampsOf_eraseP] at hstep
    rw [List.count_cons]
    refine hstep.trans ?_
    cases t == k with
    | true => exact List.drop_tail
    | false => rfl

end Jamswap.Library
