import Jamswap.Service.FundedRounds

/-!
# Custody equals balances, as far as rounds are paid

Custody is written by deposits and withdrawals only, and the service holds that every asset's
balances add up to it. Everything but a round keeps the two equal. A round does when every account
can pay its net changes (`PaidRound`): the service clamps balances at zero instead of checking, and
what an account cannot pay is created. `custody_eq_circulating` is the statement over runs from the
empty storage; `unfundedRun_creates` is a run of four items that breaks it.
-/

namespace Jamswap.Service

open Library Engine Storage

/-- The balances of every asset are backed by its custody, and it by them. -/
def Backed (st : Storage) : Prop := ∀ asset, circulating st asset = (getCust st asset).toNat

/-- Every account can pay its net changes. Where base and quote are one asset the two parts of a
change are written one after the other, so the balance in between must be in range as well. -/
structure PaidRound (P : Primitives) (st : Storage) (inp : RoundInput) : Prop where
  sides : SidesSafe (inp.orders.map Order.label)
  pays : ∀ asset account,
    0 ≤ held st asset account + changeOf inp.base inp.quote asset (inp.netChange P account)
  between : inp.base = inp.quote → ∀ account,
    0 ≤ held st inp.base account + (inp.netChange P account).1 ∧
      held st inp.base account + (inp.netChange P account).1 < 2 ^ 64

/-- An item that is not an accepted round, or a paid one. -/
def PaidStep (P : Primitives) (st : Storage) (item : WorkItem) : Prop :=
  (deliver P st item).2 = .accepted → ∀ inp, roundInput P item.payload.val = some inp →
    PaidRound P st inp

/-- What an output with this tag deposits of an asset. -/
def depositIn (asset : UInt32) (tag : Tag) (out : Bytes) : ℕ :=
  match tag, Deposit.decode out with
  | .deposit, some d => if d.asset = asset then d.amount.toNat else 0
  | _, _ => 0

/-- What an item deposits of an asset. -/
def deposited (P : Primitives) (asset : UInt32) (st : Storage) (item : WorkItem) : ℕ :=
  match (deliver P st item).2, tagOf (refine P item.payload.val) with
  | .accepted, some tag => depositIn asset tag (refine P item.payload.val)
  | _, _ => 0

/-- The amount an item would deposit, of whichever asset. -/
def depositAmount (P : Primitives) (item : WorkItem) : ℕ :=
  (Deposit.decode (refine P item.payload.val)).elim 0 fun d ↦ d.amount.toNat

theorem deposited_le (P : Primitives) (asset : UInt32) (st : Storage) (item : WorkItem) :
    deposited P asset st item ≤ depositAmount P item := by
  simp only [deposited, depositIn, depositAmount]
  repeat' split
  all_goals simp_all

/-! ### Items that are not rounds -/

variable {K : Set Key} {P : Primitives} {st : Storage} {item : WorkItem}

section Items

variable {st st' : Storage}

theorem circulating_of_frame (h : Frame K st st') (hK : ∀ asset account, Key.bal asset account ∉ K)
    (asset : UInt32) : circulating st' asset = circulating st asset := by
  refine circulating_of_agreeOn ?_ asset
  rintro k ⟨asset, account, rfl⟩
  exact h.getD_eq (hK asset account)

theorem getCust_of_frame (h : Frame K st st') (hK : ∀ asset, Key.cust asset ∉ K) (asset : UInt32) :
    getCust st' asset = getCust st asset := h.getU64_eq (hK asset)

theorem getCust_setCust (st : Storage) (asset asset' : UInt32) (v : UInt64) :
    getCust (setCust st asset v) asset' = if asset' = asset then v else getCust st asset' := by
  unfold getCust setCust
  rw [getU64_setU64]
  simp only [Key.cust.injEq]

theorem circulating_setCust (st : Storage) (asset : UInt32) (v : UInt64) (asset' : UInt32) :
    circulating (setCust st asset v) asset' = circulating st asset' :=
  circulating_of_frame (frame_setCust st asset v) (by simp) asset'

theorem getCust_setBal (st : Storage) (asset account : UInt32) (v : UInt64) (asset' : UInt32) :
    getCust (setBal st asset account v) asset' = getCust st asset' :=
  getCust_of_frame (frame_setBal st asset account v) (by simp) asset'

theorem Backed.of_frame (hst : Backed st) (h : Frame K st st')
    (hbal : ∀ asset account, Key.bal asset account ∉ K) (hcust : ∀ asset, Key.cust asset ∉ K) :
    Backed st' := by
  intro asset
  rw [circulating_of_frame h hbal, getCust_of_frame h hcust, hst asset]

/-- A deposit adds the same to a balance and to custody. -/
theorem Backed.payIn (hst : Backed st) {d : Deposit}
    (hfits : (getCust st d.asset).toNat + d.amount.toNat < 2 ^ 64) :
    Backed (payIn st d) ∧ ∀ asset, (getCust (payIn st d) asset).toNat =
      (getCust st asset).toNat + if d.asset = asset then d.amount.toNat else 0 := by
  have hle := getBal_le_circulating st d.asset d.account
  have htotal := hst d.asset
  have hcredit := circulating_setBal st d.asset d.account
    (satAdd (getBal st d.asset d.account) d.amount)
  rw [toNat_satAdd_of_lt (by omega)] at hcredit
  have hcust : ∀ asset, (getCust (Service.payIn st d) asset).toNat =
      (getCust st asset).toNat + if d.asset = asset then d.amount.toNat else 0 := by
    intro asset
    simp only [Service.payIn, getCust_setCust, getCust_setBal]
    by_cases hasset : asset = d.asset
    · subst hasset
      rw [if_pos rfl, if_pos rfl, toNat_satAdd_of_lt hfits]
    · rw [if_neg hasset, if_neg (Ne.symm hasset), add_zero]
  refine ⟨fun asset ↦ ?_, hcust⟩
  rw [hcust asset]
  simp only [Service.payIn, circulating_setCust]
  by_cases hasset : asset = d.asset
  · subst hasset
    rw [if_pos rfl]
    omega
  · rw [circulating_setBal_ne _ hasset, if_neg (Ne.symm hasset), add_zero, hst asset]

/-- A withdrawal takes the same from a balance and from custody. -/
theorem Backed.payOut (hst : Backed st) (asset account : UInt32) (amount : UInt64) :
    Backed (payOut st asset account amount) ∧
      ∀ asset', (getCust (payOut st asset account amount) asset').toNat ≤
        (getCust st asset').toNat := by
  simp only [Service.payOut]
  split_ifs with hpays
  swap
  · exact ⟨hst, fun _ ↦ Nat.le_refl _⟩
  have hle := getBal_le_circulating st asset account
  have htotal := hst asset
  have hdebit := circulating_setBal st asset account (getBal st asset account - amount)
  rw [UInt64.toNat_sub_of_le _ _ hpays] at hdebit
  rw [UInt64.le_iff_toNat_le] at hpays
  constructor
  · intro asset'
    rw [circulating_setCust, getCust_setCust]
    by_cases hasset : asset' = asset
    · subst hasset
      rw [if_pos rfl, toNat_satSub, getCust_setBal]
      omega
    · rw [if_neg hasset, circulating_setBal_ne _ hasset, getCust_setBal, hst asset']
  · intro asset'
    rw [getCust_setCust]
    split_ifs with hasset
    · subst hasset
      rw [toNat_satSub, getCust_setBal]
      omega
    · rw [getCust_setBal]

/-- A sweep moves the treasury's balance without changing the total. -/
theorem Backed.sweepTreasury (hst : Backed st) (asset : UInt32) (amount : UInt64)
    (dest : UInt32) : Backed (sweepTreasury st asset amount dest) := by
  intro asset'
  rw [getCust_of_frame (frame_sweepTreasury st asset amount dest) (by simp),
    ← hst asset']
  simp only [Service.sweepTreasury]
  split_ifs
  · have hsmall : circulating st asset < 2 ^ 64 := by
      rw [hst asset]
      exact UInt64.toNat_lt _
    exact circulating_transfer (min_le_right_u64 _ _)
      (transfer_fits dest (min_le_right_u64 _ _) hsmall) asset'
  · rfl

theorem Backed.itemStep {P : Primitives} {slot : UInt32} {out : Bytes} {tag : Tag}
    (hst : Backed st) (htag : tagOf out = some tag) (hround : tag.isRound = false)
    (hstep : ItemStep P slot st out st')
    (hfits : ∀ d, tag = .deposit → Deposit.decode out = some d →
      (getCust st d.asset).toNat + d.amount.toNat < 2 ^ 64) :
    Backed st' ∧ ∀ asset, (getCust st' asset).toNat ≤
      (getCust st asset).toNat + depositIn asset tag out := by
  have hquiet : (∀ asset account, Key.bal asset account ∉ itemKeys tag out) →
      (∀ asset, Key.cust asset ∉ itemKeys tag out) →
      Backed st' ∧ ∀ asset, (getCust st' asset).toNat ≤
        (getCust st asset).toNat + depositIn asset tag out := by
    intro hbal hcust
    refine ⟨hst.of_frame (hstep.frame htag) hbal hcust, fun asset ↦ ?_⟩
    rw [getCust_of_frame (hstep.frame htag) hcust]
    exact Nat.le_add_right _ _
  cases hstep with
  | @deposit d mid tagged decoded admitted =>
    cases htag.symm.trans tagged
    have hnonce : Frame {Key.dn d.account} st mid := by
      have hframe := Deposit.frame_admitNonce st d.account d.nonce
      rwa [admitted] at hframe
    have hmid := hst.of_frame hnonce (by simp) (by simp)
    have hcust : ∀ asset, getCust mid asset = getCust st asset :=
      getCust_of_frame hnonce (by simp)
    obtain ⟨hbacked, hafter⟩ := hmid.payIn (d := d)
      (by rw [hcust]; exact hfits d rfl decoded)
    refine ⟨hbacked, fun asset ↦ ?_⟩
    simp only [depositIn, decoded]
    rw [hafter, hcust]
  | withdraw tagged =>
    cases htag.symm.trans tagged
    have hnonce := frame_set_self st (.nc (u32At out 1)) (u64Bytes (u64At out 17 + 1))
    have hmid := hst.of_frame hnonce (by simp) (by simp)
    obtain ⟨hbacked, hafter⟩ := hmid.payOut (u32At out 5) (u32At out 1) (u64At out 9)
    refine ⟨hbacked, fun asset ↦ (hafter asset).trans ?_⟩
    rw [getCust_of_frame hnonce (by simp)]
    exact Nat.le_refl _
  | treasury tagged =>
    cases htag.symm.trans tagged
    have hnonce := frame_set_self st .govnonce (u64Bytes (u64At out 17 + 1))
    have hmid := hst.of_frame hnonce (by simp) (by simp)
    refine ⟨hmid.sweepTreasury _ _ _, fun asset ↦ ?_⟩
    rw [getCust_of_frame (frame_sweepTreasury _ _ _ _) (by simp), setU64,
      getCust_of_frame hnonce (by simp)]
    exact Nat.le_refl _
  | commit tagged | carryCommit tagged | cancel tagged | register tagged | list tagged
  | encSetup tagged | encCommit tagged | carryEncCommit tagged =>
    cases htag.symm.trans tagged
    exact hquiet (by simp) (by simp)
  | round isRound step =>
    cases htag.symm.trans step.tagged
    cases isRound.symm.trans hround

end Items

/-! ### Rounds -/

section Rounds

variable {P : Primitives} {st st' mid : Storage} {item : WorkItem} {inp : RoundInput}
  {floors : List (UInt32 × UInt64)}

/-- Nobody can end up with more than there is. -/
theorem PaidRound.inRange (h : PaidRound P st inp) (hlen : inp.orders.length ≤ 2 ^ 32)
    (hsmall : ∀ asset, circulating st asset < 2 ^ 64) :
    ∀ d ∈ inp.deltas P, InRange st inp.base inp.quote d := by
  have hfinal : ∀ asset, ∑ account : UInt32, (held st asset account +
      changeOf inp.base inp.quote asset (inp.netChange P account)) = circulating st asset := by
    intro asset
    rw [Finset.sum_add_distrib, ← cast_circulating]
    unfold RoundInput.netChange
    rw [sum_changeOf_amount, RoundInput.sum_deltas hlen h.sides, changeOf_zero, add_zero]
  intro d hd
  have hnet := RoundInput.netChange_of_mem hd
  refine ⟨fun asset ↦ ⟨hnet ▸ h.pays asset d.1, ?_⟩, fun heq ↦ hnet ▸ h.between heq d.1⟩
  have hle := Finset.single_le_sum (fun account _ ↦ h.pays asset account) (Finset.mem_univ d.1)
  rw [hfinal asset, hnet] at hle
  exact lt_of_le_of_lt hle (Int.ofNat_lt.mpr (hsmall asset))

/-- The treasury has room for all the fees there are. -/
theorem alongRun_feeFits {base : UInt32} (hsmall : circulating st base < 2 ^ 64)
    (bindings : List Binding) : AlongRun (chargeFee base) (FeeFits base) st bindings := by
  induction bindings generalizing st with
  | nil => trivial
  | cons b bindings ih =>
    have hfits : FeeFits base st b := by
      intro hother
      have hroom := transfer_fits feeAccount
        (min_le_right_u64 feeFlat (getBal st base b.account)) hsmall
      rwa [getBal_setBal, if_neg fun heq ↦ hother heq.2.symm] at hroom
    refine ⟨hfits, ih ?_⟩
    rw [circulating_chargeFee hfits]
    exact hsmall

theorem Backed.round (hst : Backed st) (h : RoundDelivery P st item inp floors mid st')
    (hpaid : PaidRound P st inp) :
    Backed st' ∧ ∀ asset, getCust st' asset = getCust st asset := by
  have hlen := h.orders_length_lt.le
  have hsmall : ∀ asset, circulating st asset < 2 ^ 64 := by
    intro asset
    rw [hst asset]
    exact UInt64.toNat_lt _
  have hcust : ∀ asset, getCust st' asset = getCust st asset :=
    getCust_of_frame h.step.frame (by simp [roundKeys])
  have hsettled : ∀ asset, circulating (inp.settled P st) asset = circulating st asset :=
    circulating_settle (inp.nodup_deltas P) (hpaid.inRange hlen hsmall)
      (RoundInput.sum_deltas hlen hpaid.sides)
  refine ⟨fun asset ↦ ?_, hcust⟩
  have hroom : circulating (inp.settled P st) inp.base < 2 ^ 64 := by
    rw [hsettled]
    exact hsmall inp.base
  have hfees := alongRun_feeFits hroom inp.ps.bindings
  rw [circulating_of_agreeOn h.balances, circulating_chargeFees hfees, hsettled, hcust, hst asset]

end Rounds

/-! ### Runs -/

/-- One item keeps balances and custody equal, and custody grows by no more than its deposit. -/
theorem Backed.step (hst : Backed st) (hpaid : PaidStep P st item)
    (hfits : ∀ asset, (getCust st asset).toNat + deposited P asset st item < 2 ^ 64) :
    Backed (deliver P st item).1 ∧ ∀ asset, (getCust (deliver P st item).1 asset).toNat ≤
      (getCust st asset).toNat + deposited P asset st item := by
  rcases deliver_cases P st item with hrefused | ⟨st', tag, hdeliver, htag, hround, hstep⟩ |
    ⟨st', inp, floors, mid, hdeliver, hdelivery⟩
  · rw [hrefused]
    exact ⟨hst, fun _ ↦ Nat.le_add_right _ _⟩
  · have hdeposit : ∀ asset, deposited P asset st item =
        depositIn asset tag (refine P item.payload.val) := by
      intro asset
      simp only [deposited, hdeliver, htag]
    obtain ⟨hbacked, hcust⟩ := hst.itemStep htag hround hstep (by
      intro d hd hdecode
      have hfit := hfits d.asset
      subst hd
      simpa only [hdeposit, depositIn, hdecode, if_true] using hfit)
    rw [hdeliver]
    refine ⟨hbacked, fun asset ↦ ?_⟩
    rw [hdeposit]
    exact hcust asset
  · obtain ⟨hbacked, hcust⟩ := hst.round hdelivery
      (hpaid (by rw [hdeliver]) inp hdelivery.input)
    rw [hdeliver]
    refine ⟨hbacked, fun asset ↦ ?_⟩
    rw [hcust]
    exact Nat.le_add_right _ _

theorem Backed.run {P : Primitives} {st : Storage} (hst : Backed st) {items : List WorkItem}
    (hpaid : AlongRun (fun st item ↦ (deliver P st item).1) (PaidStep P) st items)
    (hfits : ∀ asset, (getCust st asset).toNat +
      totalOver (fun st item ↦ (deliver P st item).1) (deposited P asset) st items < 2 ^ 64) :
    Backed (runItems P st items) := by
  induction items generalizing st with
  | nil => exact hst
  | cons item items ih =>
    simp only [totalOver] at hfits
    obtain ⟨hbacked, hcust⟩ := hst.step hpaid.1 fun asset ↦
      lt_of_le_of_lt (by omega) (hfits asset)
    refine ih hbacked hpaid.2 fun asset ↦ ?_
    exact lt_of_le_of_lt (Nat.add_le_add_right (hcust asset) _)
      (by rw [add_assoc]; exact hfits asset)

theorem backed_empty : Backed Store.empty := by
  intro asset
  have hzero : ∀ k : Key, getU64 Store.empty k = 0 := fun _ ↦ rfl
  unfold circulating getBal getCust
  simp only [hzero]
  exact Finset.sum_eq_zero fun _ _ ↦ rfl

/-- In every state reached from the empty storage by paid rounds and any other items, with less than
`2 ^ 64` of each asset ever deposited, the balances of every asset add up to its custody. -/
theorem custody_eq_circulating (P : Primitives) (items : List WorkItem)
    (hfits : ∀ asset, totalOver (fun st item ↦ (deliver P st item).1) (deposited P asset)
      Store.empty items < 2 ^ 64)
    (hpaid : AlongRun (fun st item ↦ (deliver P st item).1) (PaidStep P) Store.empty items)
    (asset : UInt32) :
    circulating (runItems P Store.empty items) asset =
      (getCust (runItems P Store.empty items) asset).toNat := by
  refine backed_empty.run hpaid (fun asset ↦ ?_) asset
  have hzero : (getCust Store.empty asset).toNat = 0 := rfl
  rw [hzero, zero_add]
  exact hfits asset

/-! ### Two runs -/

theorem paidStep_of_none (h : roundInput P item.payload.val = none) : PaidStep P st item := by
  intro _ inp hinput
  cases h.symm.trans hinput

theorem paidStep_of_deltas {P : Primitives} {st : Storage} {item : WorkItem} {inp : RoundInput}
    (hinput : roundInput P item.payload.val = some inp) (hassets : inp.base ≠ inp.quote)
    (hsides : SidesSafe (inp.orders.map Order.label))
    (hpays : ∀ d ∈ inp.deltas P, 0 ≤ held st inp.base d.1 + d.2.1 ∧
      0 ≤ held st inp.quote d.1 + d.2.2) : PaidStep P st item := by
  intro _ inp' hinput'
  cases hinput.symm.trans hinput'
  refine ⟨hsides, fun asset account ↦ ?_, fun heq ↦ absurd heq hassets⟩
  by_cases hmem : account ∈ (inp.deltas P).map Prod.fst
  · obtain ⟨d, hd, rfl⟩ := List.mem_map.mp hmem
    obtain ⟨hbase, hquote⟩ := hpays d hd
    have hheld := held_nonneg st asset d.1
    rw [RoundInput.netChange_of_mem hd, changeOf]
    split_ifs with hb hq hq
    · exact absurd (hb.symm.trans hq) hassets
    · rwa [hb, add_zero]
    · rwa [hq, zero_add]
    · rwa [add_zero, add_zero]
  · rw [RoundInput.netChange, amount_of_notMem hmem, changeOf_zero, add_zero]
    exact held_nonneg _ _ _

/-- An order for ten units at price 5, signed with the key of repeated byte `key`. -/
def signedTen (account id : UInt32) (side : Side) (key : UInt8) : SignedOrder where
  order := ⟨account, id, side, 5, 10⟩
  flags := 0
  signedPrice := 5
  seq := 1
  pubkey := FixedBytes.ofBytes 32 (List.replicate 32 key)
  sig := FixedBytes.ofBytes 64 []

/-- List market 0, trading asset 1 against asset 2, and register accounts 1 and 2. -/
def openingItems : List WorkItem :=
  [⟨1, ⟨[Tag.list.byte] ++ u32Bytes 0 ++ u32Bytes 1 ++ u32Bytes 2, by decide +kernel⟩⟩,
    ⟨2, ⟨[Tag.register.byte] ++ List.replicate 32 1 ++ List.replicate 64 0, by decide +kernel⟩⟩,
    ⟨3, ⟨[Tag.register.byte] ++ List.replicate 32 2 ++ List.replicate 64 0, by decide +kernel⟩⟩]

/-- Account 1 buys from account 2. -/
def tradeItem : WorkItem :=
  ⟨6, ⟨smatchPayload 0 1 2
    (publicSectionBytes [signedTen 1 7 .buy 1, signedTen 2 8 .sell 2] [] []), by decide +kernel⟩⟩

def depositItem (slot asset account : UInt32) (amount : UInt64) : WorkItem :=
  ⟨slot, ⟨[Tag.deposit.byte] ++ u32Bytes account ++ u32Bytes asset ++ u64Bytes amount ++ u64Bytes 1,
    by simp [maxInput]⟩⟩

/-- The seller deposits base and the buyer quote before they trade. -/
def paidRun : List WorkItem :=
  openingItems ++ [depositItem 4 1 2 400, depositItem 5 2 1 50, tradeItem]

/-- The round of `tradeItem`. -/
def tradeRound : RoundInput where
  kind := .smatch
  market := 0
  base := 1
  quote := 2
  ps := ⟨[], [(⟨1, 7, .buy, 5, 10⟩, ⟨1, 1, FixedBytes.ofBytes 32 (List.replicate 32 1), 0, 5⟩),
    (⟨2, 8, .sell, 5, 10⟩, ⟨2, 1, FixedBytes.ofBytes 32 (List.replicate 32 2), 0, 5⟩)],
    Primitives.toy.blake2s []⟩

theorem paidRun_custody :
    circulating (runItems Primitives.toy Store.empty paidRun) 1 =
      (getCust (runItems Primitives.toy Store.empty paidRun) 1).toNat := by
  have hround : roundInput Primitives.toy tradeItem.payload.val = some tradeRound := by
    decide +kernel
  have hsides : SidesSafe (tradeRound.orders.map Order.label) :=
    Or.inl (sidesAgree_of_nodup (by decide +kernel))
  refine custody_eq_circulating Primitives.toy paidRun (fun asset ↦ ?_)
    ⟨paidStep_of_none (by decide +kernel), paidStep_of_none (by decide +kernel),
      paidStep_of_none (by decide +kernel), paidStep_of_none (by decide +kernel),
      paidStep_of_none (by decide +kernel),
      paidStep_of_deltas hround (by decide +kernel) hsides (by decide +kernel), trivial⟩ 1
  exact lt_of_le_of_lt (totalOver_le_sum (deposited_le Primitives.toy asset) _ _)
    (by decide +kernel)

/-- Nobody has deposited anything when accounts 1 and 2 trade. -/
def unfundedRun : List WorkItem := openingItems ++ [tradeItem]

/-- The treasury ends up with ten units of asset 1, of which the service holds none. -/
theorem unfundedRun_creates :
    (∀ asset, totalOver (fun st item ↦ (deliver Primitives.toy st item).1)
      (deposited Primitives.toy asset) Store.empty unfundedRun = 0) ∧
    getBal (runItems Primitives.toy Store.empty unfundedRun) 1 feeAccount = 10 ∧
    getCust (runItems Primitives.toy Store.empty unfundedRun) 1 = 0 ∧
    circulating (runItems Primitives.toy Store.empty unfundedRun) 1 ≠
      (getCust (runItems Primitives.toy Store.empty unfundedRun) 1).toNat := by
  have hbal : getBal (runItems Primitives.toy Store.empty unfundedRun) 1 feeAccount = 10 := by
    decide +kernel
  have hcust : getCust (runItems Primitives.toy Store.empty unfundedRun) 1 = 0 := by
    decide +kernel
  refine ⟨fun asset ↦ ?_, hbal, hcust, ?_⟩
  · exact Nat.le_zero.mp ((totalOver_le_sum (deposited_le Primitives.toy asset) _ _).trans
      (by decide +kernel))
  · have hle := getBal_le_circulating (runItems Primitives.toy Store.empty unfundedRun) 1 feeAccount
    rw [hbal] at hle
    rw [hcust]
    intro hzero
    rw [hzero] at hle
    exact absurd hle (by decide)

end Jamswap.Service
