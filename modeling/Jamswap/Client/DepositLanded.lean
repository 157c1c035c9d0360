import Jamswap.Service.DepositWindow

/-!
# Asking the chain whether a deposit landed

The set-up client asks whether the service has admitted a deposit's nonce, and answers from the
account's record of bounded size: yes if the nonce is at most the floor or in the window. Everything
admitted is answered with yes, but a nonce below the floor may never have been seen at all. The
record is the one the nonces admitted so far call for (`get_dn_runItems`), and which nonces those
are is decided by the offers alone (`admitted_iff_mem_taken`), so the answer is right exactly when
fewer than seventeen different larger nonces of the account come before the nonce's first item
(`depositLanded_iff_admitted_iff`).
-/

namespace Jamswap.Client

open Library Engine Service Service.Storage

/-- `deposit_landed`, on the storage read. -/
def depositLanded (st : Storage) (account : UInt32) (nonce : UInt64) : Bool :=
  let v := st.getD (.dn account)
  if v.length < 8 then false
  else
    let floor := u64At v 0
    -- at the offsets 8, 16, … below the length less seven
    let window := (List.range ((v.length - 8) / 8)).map fun i ↦ u64At v (8 + 8 * i)
    decide (nonce ≤ floor) || window.contains nonce

/-- The deposit an item asks for, if its output is one. -/
def depositOf (P : Primitives) (item : Service.WorkItem) : Option Deposit :=
  match workResult P item.payload with
  | .ok out => if tagOf out.val = some .deposit then Deposit.decode out.val else none
  | .error _ => none

/-- The nonces of an account's deposits in a run, in order. -/
def offered (P : Primitives) (items : List Service.WorkItem) (account : UInt32) : List UInt64 :=
  ((items.filterMap (depositOf P)).filter fun d ↦ d.account = account).map Deposit.nonce

/-- The service admitted the nonce for the account at some item of the run. -/
def Admitted (P : Primitives) (items : List Service.WorkItem) (account : UInt32)
    (nonce : UInt64) : Prop :=
  ∃ before item after, items = before ++ item :: after ∧
    (∃ d, depositOf P item = some d ∧ d.account = account ∧ d.nonce = nonce) ∧
    (deliver P (runItems P Store.empty before) item).2 = .accepted

/-- The client reads the window as the service does. -/
theorem depositLanded_iff (st : Storage) (account : UInt32) (nonce : UInt64) :
    depositLanded st account nonce = true ↔ 8 ≤ (st.getD (.dn account)).length ∧
      (nonce ≤ depositFloor st account ∨ nonce ∈ depositWindow st account) := by
  have hwindow : (List.range (((st.getD (.dn account)).length - 8) / 8)).map
      (fun i ↦ u64At (st.getD (.dn account)) (8 + 8 * i)) = depositWindow st account := by
    rw [depositWindow, records, List.map_map, List.length_drop]
    refine List.map_congr_left fun i _ ↦ ?_
    have hwidth : (i + 1) * 8 - i * 8 = 8 := by omega
    have hplace : 8 + i * 8 = 8 + 8 * i := by omega
    simp only [Function.comp_apply, u64At, slice, List.drop_drop, List.drop_zero, hwidth, hplace]
    simp [List.take_take]
  simp only [depositLanded, hwindow]
  rw [depositFloor]
  split_ifs with hshort hlong hlong
  · omega
  · simp [hlong]
  · simp [hlong]
  · omega

variable {d : Deposit} {P : Primitives} {item : Service.WorkItem}

section Deliveries

variable {P : Primitives} {st : Storage} {item : Service.WorkItem} {account : UInt32}
  {nonce : UInt64}

theorem deliver_of_depositOf (h : depositOf P item = some d) :
    deliver P st item =
      if (Deposit.admitNonce st d.account d.nonce).1 then
        (payIn (Deposit.admitNonce st d.account d.nonce).2 d, .accepted)
      else (st, .refused) := by
  unfold depositOf at h
  unfold deliver
  cases hresult : workResult P item.payload with
  | error e =>
    rw [hresult] at h
    cases h
  | ok out =>
    rw [hresult] at h
    simp only at h ⊢
    split_ifs at h with htag
    have htag' : out.val.head?.bind Tag.ofByte = some .deposit := htag
    simp only [accumulateItem, htag', accumulateDeposit, h]
    rcases hadmitted : Deposit.admitNonce st d.account d.nonce with ⟨ok, mid⟩
    cases ok with
    | false => simp [Deposit.admitNonce_eq_false hadmitted]
    | true => rfl

theorem admitNonce_snd_of_refused (h : (Deposit.admitNonce st account nonce).1 = false) :
    (Deposit.admitNonce st account nonce).2 = st :=
  Deposit.admitNonce_eq_false (Prod.ext h rfl)

theorem get_dn_of_depositOf_some (h : depositOf P item = some d) (account : UInt32) :
    (deliver P st item).1.get (.dn account) =
      (Deposit.admitNonce st d.account d.nonce).2.get (.dn account) := by
  rw [deliver_of_depositOf h]
  split_ifs with hadmitted
  · exact (frame_payIn _ d).get_eq (by simp)
  · rw [admitNonce_snd_of_refused (Bool.eq_false_iff.mpr hadmitted)]

theorem get_dn_of_depositOf_none (h : depositOf P item = none) (account : UInt32) :
    (deliver P st item).1.get (.dn account) = st.get (.dn account) := by
  have hframe : Storage.Frame {k | ∀ a, k ≠ .dn a} st (deliver P st item).1 := by
    refine frame_deliver fun out tag st' hresult htag hstep k hk a hdn ↦ ?_
    subst hdn
    simp only [depositOf, hresult] at h
    cases tag with
    | deposit =>
      cases hstep with
      | deposit tagged decoded admitted => simp [tagged, decoded] at h
      | round isRound step =>
        cases htag.symm.trans step.tagged
        cases isRound
      | _ => cases htag.symm.trans (by assumption)
    | _ =>
      simp [roundKeys] at hk
  exact hframe.get_eq fun hk ↦ hk account rfl

end Deliveries

/-! ### Over a run -/

local instance nonceOrder : LinearOrder UInt64 := Deposit.wordOrder

theorem offered_concat_of_none (h : depositOf P item = none) (items : List Service.WorkItem)
    (account : UInt32) : offered P (items ++ [item]) account = offered P items account := by
  rw [offered, List.filterMap_append, List.filterMap_cons_none h, List.filterMap_nil,
    List.append_nil, ← offered]

theorem offered_concat_of_some (h : depositOf P item = some d) (items : List Service.WorkItem)
    (account : UInt32) :
    offered P (items ++ [item]) account =
      if d.account = account then offered P items account ++ [d.nonce]
      else offered P items account := by
  rw [offered, List.filterMap_append, List.filterMap_cons_some h, List.filterMap_nil,
    List.filter_append, List.map_append, ← offered]
  split_ifs with haccount
  · simp [haccount]
  · simp [haccount]

theorem admitNonce_fst_iff_pos {st : Storage} {account : UInt32} {nonce : UInt64}
    {admitted : List UInt64} (h : st.get (.dn account) = Deposit.record admitted) :
    (Deposit.admitNonce st account nonce).1 = true ↔
      0 < nonce ∧ nonce ∉ admitted ∧ admitted.countP (nonce < ·) ≤ Deposit.window := by
  rw [Deposit.admitNonce_fst_iff h, UInt64.pos_iff_ne_zero]

/-- An account's record is the one that the nonces taken from its offers call for. -/
theorem get_dn_runItems (P : Primitives) (items : List Service.WorkItem) (account : UInt32) :
    (runItems P Store.empty items).get (.dn account) =
      Deposit.record (taken Deposit.window 0 (offered P items account)) := by
  induction items using List.reverseRecOn with
  | nil => rfl
  | append_singleton items item ih =>
    rw [runItems_concat]
    cases hdeposit : depositOf P item with
    | none => rw [get_dn_of_depositOf_none hdeposit, offered_concat_of_none hdeposit, ih]
    | some d =>
      rw [get_dn_of_depositOf_some hdeposit, offered_concat_of_some hdeposit]
      split_ifs with haccount
      · rw [taken_concat, haccount]
        split_ifs with hpass
        · exact Deposit.record_admitNonce ih ((admitNonce_fst_iff_pos ih).mpr hpass)
        · have hrefused := Bool.eq_false_iff.mpr (mt (admitNonce_fst_iff_pos ih).mp hpass)
          rw [admitNonce_snd_of_refused hrefused, ih]
      · rw [Deposit.admitNonce_get_other (Ne.symm haccount), ih]

theorem admitted_concat (P : Primitives) (items : List Service.WorkItem) (item : Service.WorkItem)
    (account : UInt32) (nonce : UInt64) :
    Admitted P (items ++ [item]) account nonce ↔ Admitted P items account nonce ∨
      (∃ d, depositOf P item = some d ∧ d.account = account ∧ d.nonce = nonce) ∧
        (deliver P (runItems P Store.empty items) item).2 = .accepted := by
  constructor
  · rintro ⟨before, x, after, heq, hx⟩
    cases after using List.reverseRecOn with
    | nil =>
      obtain ⟨rfl, hitem⟩ := List.append_inj' heq rfl
      cases hitem
      exact Or.inr hx
    | append_singleton after y =>
      rw [← List.cons_append, ← List.append_assoc] at heq
      obtain ⟨rfl, -⟩ := List.append_inj' heq rfl
      exact Or.inl ⟨before, x, after, rfl, hx⟩
  · rintro (⟨before, x, after, rfl, hx⟩ | hx)
    · exact ⟨before, x, after ++ [item], by simp, hx⟩
    · exact ⟨items, item, [], rfl, hx⟩

/-- The nonces admitted are those taken. -/
theorem admitted_iff_mem_taken (P : Primitives) (items : List Service.WorkItem) (account : UInt32)
    (nonce : UInt64) :
    Admitted P items account nonce ↔
      nonce ∈ taken Deposit.window 0 (offered P items account) := by
  induction items using List.reverseRecOn with
  | nil =>
    refine ⟨?_, fun h ↦ by cases h⟩
    rintro ⟨before, item, after, heq, -⟩
    exact absurd heq (by simp)
  | append_singleton items item ih =>
    rw [admitted_concat, ih]
    cases hdeposit : depositOf P item with
    | none => simp [offered_concat_of_none hdeposit]
    | some d =>
      have haccepted : (deliver P (runItems P Store.empty items) item).2 = .accepted ↔
          (Deposit.admitNonce (runItems P Store.empty items) d.account d.nonce).1 = true := by
        rw [deliver_of_depositOf hdeposit]
        split_ifs with hadmitted
        · simp [hadmitted]
        · simp [hadmitted]
      rw [haccepted, admitNonce_fst_iff_pos (get_dn_runItems P items d.account),
        offered_concat_of_some hdeposit]
      split_ifs with haccount
      · rw [taken_concat, ← haccount]
        split_ifs with hpass
        · simp [hpass, eq_comm, or_comm]
        · simp [hpass]
      · simp [haccount]

/-- The condition on a run under which the client's answer about a nonce is right: fewer than
seventeen different larger nonces of the account come before the nonce's first deposit (in the whole
run if it has none). No deposit can carry the nonce zero, which counts as landed as soon as the
account has any record. -/
def Answerable (P : Primitives) (items : List Service.WorkItem) (account : UInt32)
    (nonce : UInt64) : Prop :=
  if nonce = 0 then ∀ n ∈ offered P items account, n = 0
  else (((offered P items account).takeWhile (· ≠ nonce)).toFinset.filter (nonce < ·)).card < 17

/-- For every run of the service from empty storage, every account and every nonce, the client's
answer is right exactly under the condition. -/
theorem depositLanded_iff_admitted_iff (P : Primitives) (items : List Service.WorkItem)
    (account : UInt32) (nonce : UInt64) :
    (depositLanded (runItems P Store.empty items) account nonce = true ↔
      Admitted P items account nonce) ↔ Answerable P items account nonce := by
  have hrecord := get_dn_runItems P items account
  set history := taken Deposit.window 0 (offered P items account) with hhistory
  have hlong : 8 ≤ ((runItems P Store.empty items).getD (.dn account)).length ↔ history ≠ [] := by
    have hvalue : (runItems P Store.empty items).getD (.dn account) =
        (Deposit.record history).getD [] := congrArg (·.getD []) hrecord
    rw [hvalue, Deposit.record]
    split_ifs with hnone
    · simp [hnone]
    · simp [hnone, length_u64Bytes]
  rw [admitted_iff_mem_taken, ← hhistory, depositLanded_iff,
    Deposit.depositFloor_of_record hrecord, Deposit.depositWindow_of_record hrecord, hlong,
    Answerable]
  split_ifs with hzero
  · -- zero is never taken, and every floor is at least zero
    have hnever : nonce ∉ history := fun hmem ↦
      (UInt64.pos_iff_ne_zero.mp (mem_of_mem_taken hmem).1) hzero
    have hfloor : nonce ≤ topFloor Deposit.window 0 history := by
      rw [hzero]
      exact UInt64.zero_le
    have hnone : history = [] ↔ ∀ n ∈ offered P items account, n = 0 := by
      rw [hhistory, taken_eq_nil_iff]
      simp only [UInt64.pos_iff_ne_zero, ne_eq, not_not]
    simp only [hnever, hfloor, true_or, and_true, iff_false, ne_eq, not_not, hnone]
  · rw [and_iff_right_of_imp]
    · rw [hhistory, seen_iff_mem_taken_iff (UInt64.pos_iff_ne_zero.mpr hzero)]
      exact Nat.lt_succ_iff.symm
    · rintro hreported hnone
      rw [hnone] at hreported
      rcases hreported with hle | hmem
      · exact hzero (UInt64.le_zero_iff.mp hle)
      · cases hmem

/-- Deposits of account 1 with the given nonces, one unit of asset 3 each. -/
def depositRun (nonces : List UInt64) : List Service.WorkItem :=
  nonces.map fun n ↦
    ⟨1, ⟨[Tag.deposit.byte] ++ u32Bytes 1 ++ u32Bytes 3 ++ u64Bytes 1 ++ u64Bytes n,
      by simp [maxInput]⟩⟩

/-- Seventeen deposits that leave out the nonce one: the client says that it landed. -/
theorem depositLanded_skipped :
    depositLanded (runItems Primitives.toy Store.empty
        (depositRun [2, 3, 4, 5, 6, 7, 8, 9, 10, 11, 12, 13, 14, 15, 16, 17, 18])) 1 1 = true ∧
      ¬ Admitted Primitives.toy
        (depositRun [2, 3, 4, 5, 6, 7, 8, 9, 10, 11, 12, 13, 14, 15, 16, 17, 18]) 1 1 := by
  refine ⟨by decide +kernel, fun hadmitted ↦ ?_⟩
  rw [admitted_iff_mem_taken] at hadmitted
  exact absurd (mem_of_mem_taken hadmitted).2 (by decide +kernel)

/-- Out of order and repeated, but within the window's reach. -/
theorem depositLanded_iff_admitted_iff_reordered :
    Answerable Primitives.toy (depositRun [5, 3, 5, 9]) 1 3 ∧
      Admitted Primitives.toy (depositRun [5, 3, 5, 9]) 1 3 := by
  have hanswerable : Answerable Primitives.toy (depositRun [5, 3, 5, 9]) 1 3 := by
    unfold Answerable
    decide +kernel
  exact ⟨hanswerable, ((depositLanded_iff_admitted_iff Primitives.toy _ 1 3).mpr hanswerable).mp
    (by decide +kernel)⟩

end Jamswap.Client
