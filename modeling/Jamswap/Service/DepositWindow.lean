import Jamswap.Library.Window
import Jamswap.Service.Atomicity

/-!
# Deposits by the window rule

A deposit's nonce is checked against a record of bounded size, a floor and the nonces seen above it.
`Intake` runs any sequence of admissions and writes down which nonces were admitted for whom. The
record of an account is then always the one its whole history calls for (`Intake.run_tracks`): the
sixteen largest nonces admitted for it, over the seventeenth as the floor. So the bounded record
decides every nonce as the full history would (`deposits_by_window_rule`).
-/

namespace Jamswap.Service.Deposit

open Library Engine

section WindowRule

/-- Nonces are compared by value. -/
local instance wordOrder : LinearOrder UInt64 where
  le_refl := UInt64.le_refl
  le_trans _ _ _ := UInt64.le_trans
  lt_iff_le_not_ge a b := by
    rw [UInt64.lt_iff_toNat_lt, UInt64.le_iff_toNat_le, UInt64.le_iff_toNat_le]
    omega
  le_antisymm _ _ := UInt64.le_antisymm
  le_total := UInt64.le_total
  toDecidableLE := inferInstance
  toDecidableEq := inferInstance
  toDecidableLT := inferInstance

/-- The record a history of admitted nonces calls for: the seventeenth largest as the floor, zero if
there are fewer, then the sixteen largest in ascending order. -/
def record (admitted : List UInt64) : Option Bytes :=
  if admitted = [] then none
  else some (u64Bytes (topFloor window 0 admitted) ++ (topWindow window admitted).flatMap u64Bytes)

variable {st : Storage} {account : UInt32} {nonce : UInt64} {admitted : List UInt64}

/-! ### Reading the record -/

theorem depositFloor_of_record (h : st.get (.dn account) = record admitted) :
    depositFloor st account = topFloor window 0 admitted := by
  have hvalue : st.getD (.dn account) = (record admitted).getD [] := congrArg (·.getD []) h
  rw [depositFloor, hvalue, record]
  split_ifs with hnone hshort hshort
  · exact absurd hshort (by simp)
  · rw [hnone]
    rfl
  · exact u64At_u64Bytes_append _ _
  · rw [Option.getD_some, List.length_append, length_u64Bytes] at hshort
    omega

theorem depositWindow_of_record (h : st.get (.dn account) = record admitted) :
    depositWindow st account = topWindow window admitted := by
  have hvalue : st.getD (.dn account) = (record admitted).getD [] := congrArg (·.getD []) h
  rw [depositWindow, hvalue, record]
  split_ifs with hnone
  · rw [hnone]
    rfl
  · rw [Option.getD_some, List.drop_left' (length_u64Bytes _),
      records_flatMap (by decide) u64Bytes length_u64Bytes, List.map_map]
    exact List.map_id'' u64At_u64Bytes _

/-- One admission, in terms of floor and window. -/
theorem admitNonce_eq (st : Storage) (account : UInt32) (nonce : UInt64) :
    admitNonce st account nonce =
      if nonce ≤ depositFloor st account ∨ nonce ∈ depositWindow st account then (false, st)
      else
        let seen := (depositWindow st account).orderedInsert (· < ·) nonce
        (true, st.set (.dn account)
          (u64Bytes (if window < seen.length then seen.headD (depositFloor st account)
              else depositFloor st account) ++
            (if window < seen.length then seen.tail else seen).flatMap u64Bytes)) := by
  simp only [List.orderedInsert_eq_take_drop, decide_not]
  by_cases hfloor : nonce ≤ depositFloor st account
  · rw [if_pos (Or.inl hfloor)]
    exact if_pos hfloor
  · by_cases hseen : nonce ∈ depositWindow st account
    · rw [if_pos (Or.inr hseen)]
      exact (if_neg hfloor).trans (if_pos (List.contains_iff_mem.mpr hseen))
    · rw [if_neg (not_or.mpr ⟨hfloor, hseen⟩)]
      exact (if_neg hfloor).trans (if_neg fun hmem ↦ hseen (List.contains_iff_mem.mp hmem))

/-- The record decides a nonce as the history does. -/
theorem admitNonce_fst_iff (h : st.get (.dn account) = record admitted) :
    (admitNonce st account nonce).1 = true ↔
      nonce ≠ 0 ∧ nonce ∉ admitted ∧ admitted.countP (nonce < ·) ≤ window := by
  have hfst : (admitNonce st account nonce).1 = true ↔
      topFloor window 0 admitted < nonce ∧ nonce ∉ topWindow window admitted := by
    rw [admitNonce_eq, depositFloor_of_record h, depositWindow_of_record h]
    split_ifs with hrefused
    · simp only [false_iff, not_and_or, not_lt, not_not]
      exact hrefused
    · rw [not_or, not_le] at hrefused
      simp only [hrefused, not_false_eq_true, and_self]
  rw [hfst]
  rcases eq_or_ne nonce 0 with rfl | hne
  · simp only [ne_eq, not_true_eq_false, false_and, iff_false, not_and_or, not_lt]
    exact Or.inl UInt64.zero_le
  · rw [above_floor_iff (UInt64.pos_iff_ne_zero.mpr hne), and_iff_right hne]

/-- An admitted nonce joins the history the record stands for. -/
theorem record_admitNonce (h : st.get (.dn account) = record admitted)
    (hadmitted : (admitNonce st account nonce).1 = true) :
    (admitNonce st account nonce).2.get (.dn account) = record (nonce :: admitted) := by
  obtain ⟨hne, hnew, hcount⟩ := (admitNonce_fst_iff h).mp hadmitted
  have hfloor : topFloor window 0 admitted < nonce :=
    ((above_floor_iff (UInt64.pos_iff_ne_zero.mpr hne)).mpr ⟨hnew, hcount⟩).1
  rw [admitNonce_eq] at hadmitted ⊢
  split_ifs at hadmitted ⊢ with hrefused
  simp only [depositFloor_of_record h, depositWindow_of_record h, ← topWindow_cons hnew hfloor,
    ← topFloor_cons hnew hfloor]
  rw [Storage.get_set, if_pos rfl, if_neg, record, if_neg (List.cons_ne_nil _ _)]
  intro hempty
  have hlength := congrArg List.length (List.append_eq_nil_iff.mp (List.isEmpty_iff.mp hempty)).1
  rw [length_u64Bytes] at hlength
  cases hlength

theorem admitNonce_get_other {other : UInt32} (hne : other ≠ account) :
    (admitNonce st account nonce).2.get (.dn other) = st.get (.dn other) := by
  refine (frame_admitNonce st account nonce).get_eq fun hmem ↦ hne ?_
  cases hmem
  rfl

/-! ### Any sequence of admissions -/

/-- The storage after a sequence of admissions, and the nonces admitted for each account. -/
structure Intake where
  storage : Storage
  admitted : UInt32 → List UInt64

namespace Intake

/-- Admit a nonce for an account, and write down whether it was. -/
def call (s : Intake) (c : UInt32 × UInt64) : Intake :=
  let out := admitNonce s.storage c.1 c.2
  ⟨out.2, if out.1 then Function.update s.admitted c.1 (c.2 :: s.admitted c.1) else s.admitted⟩

def run (st : Storage) (calls : List (UInt32 × UInt64)) : Intake :=
  calls.foldl call ⟨st, fun _ ↦ []⟩

/-- Every account's record is the one its history calls for, and no nonce is admitted twice. -/
structure Tracks (s : Intake) : Prop where
  records : ∀ account, s.storage.get (.dn account) = record (s.admitted account)
  nodup : ∀ account, (s.admitted account).Nodup

theorem Tracks.call {s : Intake} (h : s.Tracks) (c : UInt32 × UInt64) : (s.call c).Tracks := by
  obtain ⟨account, nonce⟩ := c
  cases hok : (admitNonce s.storage account nonce).1 with
  | false =>
    have hstorage : (admitNonce s.storage account nonce).2 = s.storage :=
      admitNonce_eq_false (Prod.ext hok rfl)
    simp only [Intake.call, hok, hstorage, Bool.false_eq_true, if_false]
    exact h
  | true =>
    simp only [Intake.call, hok, if_true]
    refine ⟨fun other ↦ ?_, fun other ↦ ?_⟩
    · rcases eq_or_ne other account with rfl | hne
      · simp only [Function.update_self]
        exact record_admitNonce (h.records other) hok
      · simp only [Function.update_of_ne hne, admitNonce_get_other hne]
        exact h.records other
    · rcases eq_or_ne other account with rfl | hne
      · simp only [Function.update_self, List.nodup_cons]
        exact ⟨((admitNonce_fst_iff (h.records other)).mp hok).2.1, h.nodup other⟩
      · simp only [Function.update_of_ne hne]
        exact h.nodup other

theorem run_tracks (hst : ∀ account, st.get (.dn account) = none)
    (calls : List (UInt32 × UInt64)) : (run st calls).Tracks :=
  List.foldlRecOn calls call ⟨hst, fun _ ↦ List.nodup_nil⟩ fun _ h c _ ↦ h.call c

end Intake

/-- After any sequence of admissions, an account's record is the seventeenth largest nonce admitted
for it, zero if there are fewer, and the sixteen largest in ascending order. So a nonce is admitted
exactly when it is not zero, was never admitted for the account before, and fewer than seventeen
larger ones were; a refusal writes nothing, and no call touches another account's record. -/
theorem deposits_by_window_rule (st : Storage) (hst : ∀ account, st.get (.dn account) = none)
    (calls : List (UInt32 × UInt64)) (account : UInt32) :
    (Intake.run st calls).storage.get (.dn account) =
        record ((Intake.run st calls).admitted account) ∧
      ((Intake.run st calls).admitted account).Nodup ∧
      ∀ nonce,
        ((admitNonce (Intake.run st calls).storage account nonce).1 = true ↔
          nonce ≠ 0 ∧ nonce ∉ (Intake.run st calls).admitted account ∧
            ((Intake.run st calls).admitted account).countP (nonce < ·) < 17) ∧
        ((admitNonce (Intake.run st calls).storage account nonce).1 = false →
          (admitNonce (Intake.run st calls).storage account nonce).2 =
            (Intake.run st calls).storage) ∧
        ∀ other, other ≠ account →
          (admitNonce (Intake.run st calls).storage account nonce).2.get (.dn other) =
            (Intake.run st calls).storage.get (.dn other) := by
  have htracks := Intake.run_tracks hst calls
  refine ⟨htracks.records account, htracks.nodup account, fun nonce ↦ ⟨?_, ?_, ?_⟩⟩
  · rw [admitNonce_fst_iff (htracks.records account), Nat.lt_succ_iff]
    rfl
  · exact fun hrefused ↦ admitNonce_eq_false (Prod.ext hrefused rfl)
  · exact fun other hne ↦ admitNonce_get_other hne

/-- Nonces out of order, one of them twice. -/
def sampleCalls : List (UInt32 × UInt64) := [(1, 5), (2, 9), (1, 3), (1, 5), (1, 0)]

theorem deposits_by_window_rule_sampleCalls :
    (Intake.run Store.empty sampleCalls).admitted 1 = [3, 5] ∧
      (Intake.run Store.empty sampleCalls).storage.get (.dn 1) =
        some (u64Bytes 0 ++ (u64Bytes 3 ++ u64Bytes 5)) ∧
      (admitNonce (Intake.run Store.empty sampleCalls).storage 1 4).1 = true := by
  have hadmitted : (Intake.run Store.empty sampleCalls).admitted 1 = [3, 5] := by decide +kernel
  obtain ⟨hrecord, -, hnonce⟩ :=
    deposits_by_window_rule Store.empty (fun _ ↦ rfl) sampleCalls 1
  rw [hadmitted] at hrecord hnonce
  exact ⟨hadmitted, hrecord.trans (by decide +kernel), (hnonce 4).1.mpr (by decide +kernel)⟩

end WindowRule

end Jamswap.Service.Deposit
