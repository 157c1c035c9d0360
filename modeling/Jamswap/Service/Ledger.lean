import Jamswap.Engine.Conservation
import Jamswap.Library.Runs
import Jamswap.Service.Delivery
import Mathlib.Algebra.BigOperators.Ring.Finset
import Mathlib.Algebra.Order.BigOperators.Group.Finset
import Mathlib.Data.FinEnum

/-!
# Balances and their totals

`held` is an account's balance as an integer and `circulating` the sum of all balances of an asset.
Every write of the service to balances is described by what it does to them: a settlement whose
writes stay in range changes each account by exactly its net delta (`held_settle`), so it keeps the
totals when the deltas cancel (`circulating_settle`), and fees, sweeps, deposits and withdrawals
move what they say.
-/

namespace Jamswap.Service

open Library Engine Storage

/-- A balance, as an integer. -/
def held (st : Storage) (asset account : UInt32) : ℤ := (getBal st asset account).toNat

/-- All balances of an asset, the treasury's included. -/
def circulating (st : Storage) (asset : UInt32) : ℕ :=
  ∑ account : UInt32, (getBal st asset account).toNat

section Balances

variable {st : Storage} {asset account : UInt32}

theorem held_nonneg (st : Storage) (asset account : UInt32) : 0 ≤ held st asset account :=
  Int.natCast_nonneg _

theorem getBal_setBal (st : Storage) (asset account asset' account' : UInt32) (v : UInt64) :
    getBal (setBal st asset account v) asset' account' =
      if asset' = asset ∧ account' = account then v else getBal st asset' account' := by
  unfold getBal setBal
  rw [getU64_setU64]
  simp only [Key.bal.injEq]

@[simp] theorem getBal_setBal_same (st : Storage) (asset account : UInt32) (v : UInt64) :
    getBal (setBal st asset account v) asset account = v := by
  rw [getBal_setBal, if_pos ⟨rfl, rfl⟩]

theorem cast_circulating (st : Storage) (asset : UInt32) :
    (circulating st asset : ℤ) = ∑ account : UInt32, held st asset account := by
  unfold circulating held
  rw [Nat.cast_sum]

theorem getBal_le_circulating (st : Storage) (asset account : UInt32) :
    (getBal st asset account).toNat ≤ circulating st asset :=
  Finset.single_le_sum (f := fun account ↦ (getBal st asset account).toNat)
    (fun _ _ ↦ Nat.zero_le _) (Finset.mem_univ account)

/-- Writing a balance changes its asset's total by what it changes the balance. -/
theorem circulating_setBal (st : Storage) (asset account : UInt32) (v : UInt64) :
    circulating (setBal st asset account v) asset + (getBal st asset account).toNat =
      circulating st asset + v.toNat := by
  have hupdate : (fun account' ↦ (getBal (setBal st asset account v) asset account').toNat) =
      Function.update (fun account' ↦ (getBal st asset account').toNat) account v.toNat := by
    funext account'
    rw [getBal_setBal]
    by_cases heq : account' = account
    · subst heq
      simp
    · simp [heq]
  unfold circulating
  rw [hupdate]
  exact sum_update_add (fun account' ↦ (getBal st asset account').toNat) account v.toNat

theorem circulating_setBal_ne {asset' : UInt32} (st : Storage) (h : asset' ≠ asset)
    (account : UInt32) (v : UInt64) :
    circulating (setBal st asset account v) asset' = circulating st asset' := by
  unfold circulating
  refine Finset.sum_congr rfl fun account' _ ↦ ?_
  rw [getBal_setBal, if_neg fun heq ↦ h heq.1]

theorem circulating_of_agreeOn {st₂ : Storage} (h : AgreeOn balanceKeys st st₂) (asset : UInt32) :
    circulating st asset = circulating st₂ asset := by
  unfold circulating
  refine Finset.sum_congr rfl fun account _ ↦ ?_
  rw [h.getBal_eq subset_rfl]

end Balances

/-! ### Moving a balance by a signed amount -/

/-- The change a (base, quote) pair makes to an asset. -/
def changeOf (base quote asset : UInt32) (m : ℤ × ℤ) : ℤ :=
  (if asset = base then m.1 else 0) + if asset = quote then m.2 else 0

variable (base quote asset : UInt32) {deltas : List (UInt32 × ℤ × ℤ)} {src price : UInt32}
  {settle : Bytes} {entries : List SettleEntry}

theorem changeOf_zero : changeOf base quote asset 0 = 0 := by
  simp [changeOf]

theorem changeOf_add (m n : ℤ × ℤ) :
    changeOf base quote asset (m + n) =
      changeOf base quote asset m + changeOf base quote asset n := by
  simp only [changeOf, Prod.fst_add, Prod.snd_add]
  split_ifs <;> ring

/-- The changes of all accounts are the change of the whole. -/
theorem sum_changeOf_amount (deltas : List (UInt32 × ℤ × ℤ)) :
    ∑ account : UInt32, changeOf base quote asset (amount deltas account) =
      changeOf base quote asset (deltas.map Prod.snd).sum := by
  let change : ℤ × ℤ →+ ℤ :=
    AddMonoidHom.mk' (changeOf base quote asset) (changeOf_add base quote asset)
  rw [← sum_amount]
  exact (map_sum change (amount deltas) (Finset.univ : Finset UInt32)).symm

/-- A delta whose writes need no clamping: the balances it leads to are in range, and, where base
and quote are one asset, so is the balance between the two writes. -/
structure InRange (st : Storage) (base quote : UInt32) (d : UInt32 × ℤ × ℤ) : Prop where
  net : ∀ asset, 0 ≤ held st asset d.1 + changeOf base quote asset d.2 ∧
    held st asset d.1 + changeOf base quote asset d.2 < 2 ^ 64
  between : base = quote → 0 ≤ held st base d.1 + d.2.1 ∧ held st base d.1 + d.2.1 < 2 ^ 64

theorem toNat_applyDelta {bal : UInt64} {d : ℤ} (hlow : 0 ≤ bal.toNat + d)
    (hhigh : bal.toNat + d < 2 ^ 64) : ((applyDelta bal d).toNat : ℤ) = bal.toNat + d := by
  unfold applyDelta
  rw [UInt64.toNat_ofNat']
  omega

section Settle

variable {st : Storage} {base quote : UInt32}

theorem held_settleAccount {d : UInt32 × ℤ × ℤ} (h : InRange st base quote d)
    (asset account : UInt32) :
    held (settleAccount base quote st d) asset account =
      held st asset account + if account = d.1 then changeOf base quote asset d.2 else 0 := by
  have hnet := h.net asset
  unfold held changeOf at *
  simp only [settleAccount, getBal_setBal]
  by_cases haccount : account = d.1
  swap
  · simp [haccount]
  subst haccount
  by_cases hquote : asset = quote
  · subst hquote
    by_cases hbase : asset = base
    · subst hbase
      obtain ⟨hlow, hhigh⟩ := h.between rfl
      unfold held at hlow hhigh
      simp only [and_self, if_true] at hnet ⊢
      rw [toNat_applyDelta, toNat_applyDelta hlow hhigh, add_assoc]
      · rw [toNat_applyDelta hlow hhigh]
        omega
      · rw [toNat_applyDelta hlow hhigh]
        omega
    · simp only [hbase, and_true, if_true, if_false, zero_add] at hnet ⊢
      exact toNat_applyDelta hnet.1 hnet.2
  · by_cases hbase : asset = base
    · subst hbase
      simp only [hquote, false_and, and_self, if_true, if_false, add_zero] at hnet ⊢
      exact toNat_applyDelta hnet.1 hnet.2
    · simp [hquote, hbase]

/-- Deltas in range change every account by its own. -/
theorem held_settle (hnodup : (deltas.map Prod.fst).Nodup)
    (h : ∀ d ∈ deltas, InRange st base quote d) (asset account : UInt32) :
    held (deltas.foldl (settleAccount base quote) st) asset account =
      held st asset account + changeOf base quote asset (amount deltas account) := by
  induction deltas generalizing st with
  | nil => rw [amount_nil, changeOf_zero, add_zero]; rfl
  | cons d deltas ih =>
    rw [List.map_cons, List.nodup_cons] at hnodup
    have hhead := h d List.mem_cons_self
    -- the accounts after the first are untouched by it
    have hrest : ∀ d' ∈ deltas, InRange (settleAccount base quote st d) base quote d' := by
      intro d' hd'
      have hne : d'.1 ≠ d.1 := fun heq ↦ hnodup.1 (heq ▸ List.mem_map_of_mem hd')
      have hheld : ∀ asset,
          held (settleAccount base quote st d) asset d'.1 = held st asset d'.1 := by
        intro asset
        rw [held_settleAccount hhead, if_neg hne, add_zero]
      have hd := h d' (List.mem_cons_of_mem d hd')
      constructor
      · intro asset
        rw [hheld]
        exact hd.net asset
      · rw [hheld]
        exact hd.between
    rw [List.foldl_cons, ih hnodup.2 hrest, held_settleAccount hhead, amount_cons, changeOf_add,
      add_assoc]
    congr 2
    by_cases haccount : account = d.1
    · rw [if_pos haccount, if_pos haccount.symm]
    · rw [if_neg haccount, if_neg (Ne.symm haccount), changeOf_zero]

/-- Deltas in range that cancel keep every total. -/
theorem circulating_settle (hnodup : (deltas.map Prod.fst).Nodup)
    (h : ∀ d ∈ deltas, InRange st base quote d) (hsum : (deltas.map Prod.snd).sum = 0)
    (asset : UInt32) :
    circulating (deltas.foldl (settleAccount base quote) st) asset = circulating st asset := by
  have hzero : ∑ account : UInt32, changeOf base quote asset (amount deltas account) = 0 := by
    rw [sum_changeOf_amount, hsum, changeOf_zero]
  have hcast : (circulating (deltas.foldl (settleAccount base quote) st) asset : ℤ) =
      circulating st asset := by
    rw [cast_circulating, cast_circulating,
      Finset.sum_congr rfl fun account _ ↦ held_settle hnodup h asset account,
      Finset.sum_add_distrib, hzero, add_zero]
  exact Int.ofNat_inj.mp hcast

end Settle

/-! ### Transfers -/

section Transfer

variable {st : Storage} {asset : UInt32}

/-- Taking an amount from one balance and adding it to another, possibly the same. -/
theorem circulating_transfer {dst : UInt32} {amount : UInt64}
    (hpays : amount ≤ getBal st asset src)
    (hfits : (getBal (setBal st asset src (getBal st asset src - amount)) asset dst).toNat +
      amount.toNat < 2 ^ 64) (asset' : UInt32) :
    circulating (setBal (setBal st asset src (getBal st asset src - amount)) asset dst
        (satAdd (getBal (setBal st asset src (getBal st asset src - amount)) asset dst) amount))
      asset' = circulating st asset' := by
  by_cases hasset : asset' = asset
  · subst hasset
    have hdebit := circulating_setBal st asset' src (getBal st asset' src - amount)
    have hcredit := circulating_setBal (setBal st asset' src (getBal st asset' src - amount)) asset'
      dst (satAdd (getBal (setBal st asset' src (getBal st asset' src - amount)) asset' dst) amount)
    rw [UInt64.toNat_sub_of_le _ _ hpays] at hdebit
    rw [toNat_satAdd_of_lt hfits] at hcredit
    rw [UInt64.le_iff_toNat_le] at hpays
    omega
  · rw [circulating_setBal_ne _ hasset, circulating_setBal_ne _ hasset]

theorem min_le_right_u64 (x y : UInt64) : min x y ≤ y := by
  rw [UInt64.le_iff_toNat_le, toNat_min_u64]
  exact Nat.min_le_right _ _

/-- The treasury has room for the fee of this order; paying itself it needs none. -/
def FeeFits (base : UInt32) (st : Storage) (b : Binding) : Prop :=
  b.account ≠ feeAccount →
    (getBal st base feeAccount).toNat + (min feeFlat (getBal st base b.account)).toNat < 2 ^ 64

/-- A fee stays in circulation, if the treasury has room for it. -/
theorem circulating_chargeFee {base : UInt32} {b : Binding} (hfits : FeeFits base st b)
    (asset : UInt32) : circulating (chargeFee base st b) asset = circulating st asset := by
  simp only [chargeFee]
  split_ifs
  · refine circulating_transfer (min_le_right_u64 _ _) ?_ asset
    rw [getBal_setBal]
    by_cases htreasury : b.account = feeAccount
    · rw [if_pos ⟨rfl, htreasury.symm⟩, UInt64.toNat_sub_of_le _ _ (min_le_right_u64 _ _)]
      have hle := UInt64.le_iff_toNat_le.mp (min_le_right_u64 feeFlat (getBal st base b.account))
      have hlt := (getBal st base b.account).toNat_lt
      omega
    · rw [if_neg fun heq ↦ htreasury heq.2.symm]
      exact hfits htreasury
  · rfl

/-- A total below `2 ^ 64` leaves room for any transfer. -/
theorem transfer_fits (dst : UInt32) {amount : UInt64} (hpays : amount ≤ getBal st asset src)
    (hsmall : circulating st asset < 2 ^ 64) :
    (getBal (setBal st asset src (getBal st asset src - amount)) asset dst).toNat +
      amount.toNat < 2 ^ 64 := by
  have hdebit := circulating_setBal st asset src (getBal st asset src - amount)
  have hle := getBal_le_circulating (setBal st asset src (getBal st asset src - amount)) asset dst
  rw [UInt64.toNat_sub_of_le _ _ hpays] at hdebit
  rw [UInt64.le_iff_toNat_le] at hpays
  omega

end Transfer

/-! ### Settlement and fees -/

section Applied

variable {st : Storage} {base quote : UInt32} {asset : UInt32}

theorem getBal_settleAccount_ne (hbase : asset ≠ base) (hquote : asset ≠ quote) (st : Storage)
    (d : UInt32 × ℤ × ℤ) (account : UInt32) :
    getBal (settleAccount base quote st d) asset account = getBal st asset account := by
  simp only [settleAccount, getBal_setBal, hbase, hquote, false_and, if_false]

theorem getBal_chargeFee_ne (hbase : asset ≠ base) (st : Storage) (b : Binding) (account : UInt32) :
    getBal (chargeFee base st b) asset account = getBal st asset account := by
  simp only [chargeFee]
  split_ifs
  · simp only [getBal_setBal, hbase, false_and, if_false]
  · rfl

/-- A loop that leaves a balance alone at every step leaves it alone. -/
theorem getBal_foldl {β : Type*} {step : Storage → β → Storage} {xs : List β} {account : UInt32}
    (hstep : ∀ st, ∀ x ∈ xs, getBal (step st x) asset account = getBal st asset account)
    (st : Storage) : getBal (xs.foldl step st) asset account = getBal st asset account :=
  List.foldlRecOn (motive := fun st' ↦ getBal st' asset account = getBal st asset account)
    xs step rfl fun st' h x hx ↦ (hstep st' x hx).trans h

theorem circulating_chargeFees {bindings : List Binding}
    (h : AlongRun (chargeFee base) (FeeFits base) st bindings) (asset : UInt32) :
    circulating (bindings.foldl (chargeFee base) st) asset = circulating st asset := by
  refine invariant_of_alongRun
    (I := fun st' ↦ circulating st' asset = circulating st asset) ?_ rfl h
  intro st' b hsame hfits
  rw [circulating_chargeFee hfits, hsame]

theorem settleDeltas_nil (price : UInt32) (treasury scale : UInt32) :
    settleDeltas price [] 0 treasury scale = [] := rfl

/-- As far as balances go, a settlement is its deltas and then its fees. -/
theorem agreeOn_settlement (hdecode : decodeSettlement settle = some (price, entries))
    (market : UInt32) (bindings : Bytes) :
    AgreeOn balanceKeys (applySettlement st base quote market settle bindings)
      ((decodeBindings bindings).foldl (chargeFee base)
        ((settleDeltas price entries 0 feeAccount scale).foldl (settleAccount base quote) st)) := by
  simp only [applySettlement, hdecode]
  refine List.foldl_rel (r := AgreeOn balanceKeys) ?_ fun b _ _ _ hb ↦
    hb.chargeFee subset_rfl base b
  split_ifs with hempty
  · rw [List.isEmpty_iff.mp hempty, settleDeltas_nil]
    exact fun _ _ ↦ rfl
  · rintro k ⟨asset, account, rfl⟩
    rw [setU64, getD_set_ne _ _ (by simp), getD_set_ne _ _ (by simp)]

/-- A settlement with entries records its price and adds its volume. -/
theorem tape_settlement (st : Storage) (base quote : UInt32)
    (hdecode : decodeSettlement settle = some (price, entries)) (hentries : entries ≠ [])
    (market : UInt32) (bindings : Bytes) :
    (applySettlement st base quote market settle bindings).getD (.lp market) = u32Bytes price ∧
      getU64 (applySettlement st base quote market settle bindings) (.cv market) =
        getU64 st (.cv market) +
          ((entries.filter fun e ↦ e.side == .buy).map fun e ↦ e.qty.toUInt64).sum := by
  have hfees : ∀ st : Storage, Frame balanceKeys st
      ((decodeBindings bindings).foldl (chargeFee base) st) :=
    fun st ↦ frame_foldl _ _ (fun st b _ ↦ frame_chargeFee base st b) st
  have hdeltas := frame_foldl (settleAccount base quote)
    (settleDeltas price entries 0 feeAccount scale)
    (fun st d _ ↦ frame_settleAccount base quote st d) st
  simp only [applySettlement, hdecode, List.isEmpty_iff, hentries, if_false]
  constructor
  · rw [(hfees _).getD_eq (by simp), setU64, getD_set_ne _ _ (by simp), getD_set_same]
  · rw [(hfees _).getU64_eq (by simp), getU64_setU64_same,
      getU64_set_ne _ _ (by simp), hdeltas.getU64_eq (by simp)]

end Applied

end Jamswap.Service
