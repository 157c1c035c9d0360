import Jamswap.Service.CommitSets
import Jamswap.Service.Indexed.Rules

/-!
# The commit sets with their indexing

`consume_set` and `remove_first_match` scan a stored set with an array of flags, one for each stored
entry: each target sets the flag of the first entry it matches, and the set is rebuilt from the
entries without a flag. The scans are the source's loops, and they stay inside their buffers for
every stored set and every target list.

What they compute is multiset subtraction (`consume_set_subtracts`): `consumeSet` succeeds exactly
when the stored set has every entry as often as it is consumed, and then leaves what
`removeFirstMatch` leaves.
-/

namespace Jamswap.Service.Indexed

open Library Library.Access Engine
open Library.Parse (Runs)

/-! ### Scanning a set -/

/-- `for j in 0..n`, with `left` passes to go from `j` on: set the flag of the first entry without
one whose leading `key` bytes are `t`. -/
def claim (stored : Bytes) (stride key : ℕ) (t : Bytes) (removed : List Bool) :
    ℕ → ℕ → Access (Option (List Bool))
  | 0, _ => .ok none
  | left + 1, j => do
    let gone ← index removed j
    if gone then claim stored stride key t removed left (j + 1)
    else
      let e ← range stored (j * stride) (j * stride + key)
      if e == t then
        let removed ← assign removed j true
        .ok (some removed)
      else claim stored stride key t removed left (j + 1)

/-- `for j in 0..n`: the entries without a flag, one after the other. -/
def survivors (stored : Bytes) (stride : ℕ) (removed : List Bool) (n : ℕ) : Access Bytes :=
  (List.range n).foldlM (fun out j ↦ do
    let gone ← index removed j
    if gone then .ok out
    else
      let e ← range stored (j * stride) ((j + 1) * stride)
      .ok (out ++ e)) []

variable {j n stride key : ℕ} {removed : List Bool}

section Scan

variable {stored : Bytes} {stride key : ℕ} {removed : List Bool}

theorem drop_records (h : j < stored.length / stride) :
    (records stride stored).drop j =
      slice stored (j * stride) ((j + 1) * stride) :: (records stride stored).drop (j + 1) := by
  have hlen : j < (records stride stored).length := by rwa [length_records]
  have hentry : (records stride stored)[j] = slice stored (j * stride) ((j + 1) * stride) := by
    simp only [records, List.getElem_map, List.getElem_range]
  rw [← List.getElem_cons_drop hlen, hentry]

theorem range_key_eq (hkey : key ≤ stride) (h : j < stored.length / stride) :
    range stored (j * stride) (j * stride + key) =
      .ok ((slice stored (j * stride) ((j + 1) * stride)).take key) := by
  have hend := (record_inside h).2
  rw [Nat.succ_mul] at hend
  rw [range_eq (by omega) (by omega), slice, slice, List.take_take]
  congr 3
  rw [Nat.succ_mul]
  omega

/-- The scan from `j` on marks among the entries from `j` on. -/
theorem claim_eq (hkey : key ≤ stride) (t : Bytes) (left j : ℕ)
    (hlen : removed.length = stored.length / stride) (hj : j + left = stored.length / stride) :
    claim stored stride key t removed left j =
      .ok ((mark (fun e ↦ e.take key == t) ((records stride stored).drop j) (removed.drop j)).map
        (removed.take j ++ ·)) := by
  induction left generalizing j with
  | zero =>
    have hdone : (records stride stored).drop j = [] := by
      refine List.drop_eq_nil_of_le ?_
      rw [length_records]
      omega
    rw [claim, hdone]
    rfl
  | succ left ih =>
    have hlt : j < stored.length / stride := by omega
    have hflag : j < removed.length := by omega
    have hdrop := drop_records hlt
    have hflags : removed.drop j = removed[j] :: removed.drop (j + 1) :=
      (List.getElem_cons_drop hflag).symm
    have htake : removed.take (j + 1) = removed.take j ++ [removed[j]] :=
      (List.take_concat_get' removed j hflag).symm
    rw [claim, index_eq (List.getElem?_eq_getElem hflag), ok_bind, hdrop, hflags, mark,
      ih (j + 1) (by omega), htake]
    cases hgone : removed[j] with
    | true =>
      rw [if_pos rfl, if_neg (by simp), Option.map_map]
      congr 2
      funext rest
      simp
    | false =>
      rw [if_neg Bool.false_ne_true, range_key_eq hkey hlt, ok_bind]
      cases hmatch : (slice stored (j * stride) ((j + 1) * stride)).take key == t with
      | true =>
        rw [if_pos rfl, assign_eq hflag, ok_bind, if_pos (by simp), Option.map_some]
        rw [List.set_eq_take_append_cons_drop, if_pos hflag]
      | false =>
        rw [if_neg Bool.false_ne_true, if_neg (by simp), Option.map_map]
        congr 2
        funext rest
        simp

/-- The entries without a flag are the live ones. -/
theorem survivors_eq (hn : n = stored.length / stride) (hlen : removed.length = n) :
    survivors stored stride removed n = .ok (live (records stride stored) removed).flatten := by
  -- over the passes from `j` on, with what they appended before
  have hpasses : ∀ left j out, j + left = n →
      (List.range' j left).foldlM (fun out j ↦ do
        let gone ← index removed j
        if gone then .ok out
        else
          let e ← range stored (j * stride) ((j + 1) * stride)
          .ok (out ++ e)) out =
        .ok (out ++ (live ((records stride stored).drop j) (removed.drop j)).flatten) := by
    intro left
    induction left with
    | zero =>
      intro j out hj
      have hdone : (records stride stored).drop j = [] := by
        refine List.drop_eq_nil_of_le ?_
        rw [length_records]
        omega
      rw [hdone]
      exact congrArg Except.ok (List.append_nil out).symm
    | succ left ih =>
      intro j out hj
      have hlt : j < stored.length / stride := by omega
      have hflag : j < removed.length := by omega
      have hflags : removed.drop j = removed[j] :: removed.drop (j + 1) :=
        (List.getElem_cons_drop hflag).symm
      rw [List.range'_succ, List.foldlM_cons, index_eq (List.getElem?_eq_getElem hflag), ok_bind,
        drop_records hlt, hflags, live]
      cases hgone : removed[j] with
      | true => exact ih (j + 1) out (by omega)
      | false =>
        rw [if_neg Bool.false_ne_true, range_eq (record_inside hlt).1 (record_inside hlt).2,
          ok_bind, ok_bind, ih (j + 1) _ (by omega), if_neg Bool.false_ne_true, List.flatten_cons,
          List.append_assoc]
  rw [survivors, List.range_eq_range', hpasses n 0 [] (Nat.zero_add n)]
  rfl

end Scan

/-! ### The set operations -/

/-- `for c in 0..targets.len() / key`, passing over targets that match nothing. -/
def removalFlags (stored targets : Bytes) (stride key n : ℕ) : Access (List Bool) :=
  (List.range (targets.length / key)).foldlM (fun removed c ↦ do
    let t ← range targets (c * key) ((c + 1) * key)
    let claimed ← claim stored stride key t removed n 0
    .ok (claimed.getD removed)) (List.replicate n false)

def removeFirstMatch (stored targets : Bytes) (stride key : ℕ) : Access Bytes :=
  if stride = 0 ∨ key = 0 ∨ stride < key then .ok stored
  else do
    let n := stored.length / stride
    let removed ← removalFlags stored targets stride key n
    survivors stored stride removed n

/-- `for c in 0..consumed.len() / 36`, giving up at the first entry that matches nothing. -/
def consumeFlags (stored consumed : Bytes) (n : ℕ) : Parse (List Bool) :=
  (List.range (consumed.length / setEntryLen)).foldlM (fun removed c ↦ do
    let e ← Parse.access (range consumed (c * setEntryLen) ((c + 1) * setEntryLen))
    OptionT.mk (claim stored setEntryLen setEntryLen e removed n 0)) (List.replicate n false)

def consumeSet (st : Storage) (key : Key) (consumed : Bytes) : Access (Bool × Storage) := do
  let stored := st.getD key
  let n := stored.length / setEntryLen
  match ← (consumeFlags stored consumed n).run with
  | none => .ok (false, st)
  | some removed =>
    let out ← survivors stored setEntryLen removed n
    .ok (true, st.set key out)

/-- One pass of a scan, from the first entry. -/
theorem claim_zero {stored : Bytes} (hkey : key ≤ stride) (t : Bytes)
    (hlen : removed.length = stored.length / stride) :
    claim stored stride key t removed (stored.length / stride) 0 =
      .ok (mark (fun e ↦ e.take key == t) (records stride stored) removed) := by
  rw [claim_eq hkey t _ 0 hlen (Nat.zero_add _), List.drop_zero, List.drop_zero, List.take_zero]
  congr 1
  exact Option.map_id'

/-- There stays one flag for each stored entry. -/
theorem length_getD_mark {p : Bytes → Bool} {entries : List Bytes} (hlen : removed.length = n) :
    ((mark p entries removed).getD removed).length = n := by
  cases hmark : mark p entries removed with
  | none => exact hlen
  | some marked => exact (length_mark hmark).trans hlen

theorem removalFlags_eq (hkey : key ≤ stride) (stored targets : Bytes) :
    ∃ removed, removalFlags stored targets stride key (stored.length / stride) = .ok removed ∧
      removed.length = stored.length / stride ∧
      live (records stride stored) removed =
        (records key targets).foldl (fun entries t ↦ entries.eraseP fun e ↦ e.take key == t)
          (records stride stored) := by
  let step : List Bool → ℕ → List Bool := fun removed c ↦
    (mark (fun e ↦ e.take key == slice targets (c * key) ((c + 1) * key)) (records stride stored)
      removed).getD removed
  let start := List.replicate (stored.length / stride) false
  have hloop : removalFlags stored targets stride key (stored.length / stride) =
        .ok ((List.range (targets.length / key)).foldl step start) ∧
      ((List.range (targets.length / key)).foldl step start).length = stored.length / stride := by
    refine foldlM_eq_of_inv (I := fun removed : List Bool ↦ removed.length = stored.length / stride)
      (fun removed hlen c hc ↦ ⟨?_, length_getD_mark hlen⟩) List.length_replicate
    obtain ⟨hle, hend⟩ := record_inside (List.mem_range.mp hc)
    rw [range_eq hle hend, ok_bind, claim_zero hkey _ hlen, ok_bind]
  refine ⟨_, hloop.1, hloop.2, ?_⟩
  have hmarks := live_foldl_mark (fun (t e : Bytes) ↦ e.take key == t) (records stride stored)
    (records key targets) (List.replicate (stored.length / stride) false)
  rw [← length_records stride stored, live_replicate] at hmarks
  rw [← hmarks, length_records, records.eq_1 key targets, List.foldl_map]

theorem removeFirstMatch_eq (stored targets : Bytes) (stride key : ℕ) :
    removeFirstMatch stored targets stride key =
      .ok (Service.removeFirstMatch stored targets stride key) := by
  rw [removeFirstMatch, Service.removeFirstMatch]
  split_ifs with hwidths
  · rfl
  · obtain ⟨removed, hflags, hlen, hlive⟩ :=
      removalFlags_eq (show key ≤ stride by omega) stored targets
    simp only
    rw [hflags, ok_bind, survivors_eq rfl hlen, hlive]

/-- The flags set for the consumed entries, or nothing when one of them is missing. -/
theorem consumeFlags_runs (stored consumed : Bytes) :
    let flags := (records setEntryLen consumed).foldlM (fun removed e ↦
      mark (fun x ↦ decide (x = e)) (records setEntryLen stored) removed)
        (List.replicate (stored.length / setEntryLen) false)
    Runs (consumeFlags stored consumed (stored.length / setEntryLen)) flags ∧
      ∀ removed, flags = some removed → removed.length = stored.length / setEntryLen := by
  intro flags
  have hflags : flags = (List.range (consumed.length / setEntryLen)).foldlM (fun removed c ↦
      mark (fun x ↦ decide (x = slice consumed (c * setEntryLen) ((c + 1) * setEntryLen)))
        (records setEntryLen stored) removed)
        (List.replicate (stored.length / setEntryLen) false) := by
    simp only [flags]
    rw [records.eq_1 setEntryLen consumed, List.foldlM_map]
  rw [hflags]
  refine Runs.foldlM (I := fun removed ↦ removed.length = stored.length / setEntryLen)
    (fun removed hlen c hc ↦ ⟨?_, fun marked hmark ↦ (length_mark hmark).trans hlen⟩)
    List.length_replicate
  obtain ⟨hle, hend⟩ := record_inside (List.mem_range.mp hc)
  refine Runs.access (range_eq hle hend) ?_
  -- a stored entry is compared whole
  have hwhole : mark (fun e ↦ e.take setEntryLen ==
        slice consumed (c * setEntryLen) ((c + 1) * setEntryLen)) (records setEntryLen stored)
        removed =
      mark (fun x ↦ decide (x = slice consumed (c * setEntryLen) ((c + 1) * setEntryLen)))
        (records setEntryLen stored) removed := by
    refine mark_congr fun e he ↦ ?_
    rw [List.take_of_length_le (length_of_mem_records he).le]
    exact Bool.beq_eq_decide_eq _ _
  rw [← hwhole]
  exact claim_zero le_rfl _ hlen

theorem consumeSet_eq (st : Storage) (key : Key) (consumed : Bytes) :
    consumeSet st key consumed = .ok (Service.consumeSet st key consumed) := by
  obtain ⟨hruns, hlen⟩ := consumeFlags_runs (st.getD key) consumed
  have hconsume := consume_live (records setEntryLen (st.getD key)) (records setEntryLen consumed)
    (List.replicate (records setEntryLen (st.getD key)).length false)
  rw [live_replicate, length_records] at hconsume
  simp only [consumeSet]
  rw [hruns.run_bind, Service.consumeSet, hconsume]
  cases hflags : (records setEntryLen consumed).foldlM (fun removed e ↦
      mark (fun x ↦ decide (x = e)) (records setEntryLen (st.getD key)) removed)
        (List.replicate ((st.getD key).length / setEntryLen) false) with
  | none => rfl
  | some removed =>
    simp only [Option.map_some]
    rw [survivors_eq rfl (hlen removed hflags), ok_bind]

/-! ### Multiset subtraction -/

/-- What is left of a set are its entries less the targets', first occurrences first. -/
theorem removeFirstMatch_entries (stored targets : Bytes) :
    Service.removeFirstMatch stored targets setEntryLen setEntryLen =
      ((records setEntryLen stored).diff (records setEntryLen targets)).flatten := by
  have hwidth : ∀ e ∈ records setEntryLen stored, e.length = setEntryLen :=
    fun e he ↦ length_of_mem_records he
  rw [← removeFirstMatch_set hwidth, Service.removeFirstMatch, Service.removeFirstMatch,
    records_flatten (by decide) hwidth, if_neg (by decide), if_neg (by decide)]

/-- `consume_set` is multiset subtraction. It succeeds exactly when the stored set has every
consumed entry at least as often as it is consumed. The set then becomes what `remove_first_match`
makes of it, the stored entries less the first occurrences of the consumed ones, in their order;
otherwise storage is left as it was. -/
theorem consume_set_subtracts (st : Storage) (key : Key) (consumed : Bytes) :
    ∃ ok st', consumeSet st key consumed = .ok (ok, st') ∧
      (ok = true ↔ ∀ e ∈ records setEntryLen consumed,
        (records setEntryLen consumed).count e ≤ (records setEntryLen (st.getD key)).count e) ∧
      (ok = true → ∃ left,
        removeFirstMatch (st.getD key) consumed setEntryLen setEntryLen = .ok left ∧
        records setEntryLen left =
          (records setEntryLen (st.getD key)).diff (records setEntryLen consumed) ∧
        st' = st.set key left) ∧
      (ok = false → st' = st) := by
  refine ⟨_, _, consumeSet_eq st key consumed, ?_⟩
  rw [← consume_isSome_iff_count]
  cases hrest : consume (records setEntryLen (st.getD key)) (records setEntryLen consumed) with
  | none => exact ⟨by simp, fun hok ↦ absurd hok Bool.false_ne_true, fun _ ↦ rfl⟩
  | some rest =>
    have hdiff := eq_diff_of_consume hrest
    refine ⟨by simp, fun _ ↦ ⟨rest.flatten, ?_, ?_, rfl⟩, fun hok ↦ absurd hok (by simp)⟩
    · rw [removeFirstMatch_eq, removeFirstMatch_entries, hdiff]
    · rw [records_flatten (by decide), hdiff]
      intro e he
      exact length_of_mem_records ((sublist_of_consume hrest).subset he)

end Jamswap.Service.Indexed
