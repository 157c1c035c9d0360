import Jamswap.Service.Ledger
import Jamswap.Service.Payload

/-!
# Funded rounds conserve value

A round whose accounts can pay their net changes, and whose balances stay below `2 ^ 64`, moves
value and creates none: with distinct ids and different assets, the totals of base and quote are
unchanged, no other asset is touched, and the treasury's quote balance does not fall
(`funded_round_conserves`). The last price becomes the clearing price. The cumulative volume is a
64-bit counter: it rises by the cleared volume modulo `2 ^ 64`, so exactly as long as the sum fits.
-/

namespace Jamswap.Service

open Library Engine Storage

namespace RoundInput

/-- The entries a round settles. -/
def entries (P : Primitives) (inp : RoundInput) : List SettleEntry :=
  settleEntries inp.orders (clear P inp.orders).fills

/-- The deltas a round applies, before fees. -/
def deltas (P : Primitives) (inp : RoundInput) : List (UInt32 × ℤ × ℤ) :=
  settleDeltas (clear P inp.orders).price (inp.entries P) 0 feeAccount scale

/-- The net (base, quote) change of an account. -/
def netChange (P : Primitives) (inp : RoundInput) (account : UInt32) : ℤ × ℤ :=
  amount (inp.deltas P) account

/-- The storage with the deltas applied. -/
def settled (P : Primitives) (inp : RoundInput) (st : Storage) : Storage :=
  (inp.deltas P).foldl (settleAccount inp.base inp.quote) st

theorem nodup_deltas (P : Primitives) (inp : RoundInput) :
    ((inp.deltas P).map Prod.fst).Nodup := nodup_settleDeltas _ _ _ _ _

theorem netChange_of_mem {P : Primitives} {inp : RoundInput} {d : UInt32 × ℤ × ℤ}
    (h : d ∈ inp.deltas P) : inp.netChange P d.1 = d.2 := amount_of_mem (inp.nodup_deltas P) h

/-- The deltas of a round cancel, as long as ids cannot confuse the sides. -/
theorem sum_deltas {P : Primitives} {inp : RoundInput} (hlen : inp.orders.length ≤ 2 ^ 32)
    (h : SidesSafe (inp.orders.map Order.label)) : ((inp.deltas P).map Prod.snd).sum = 0 := by
  rw [deltas, sum_settleDeltas, entries, sum_baseChange_settleEntries hlen h]
  rfl

end RoundInput

/-- Every account can pay its net changes, and no balance would reach `2 ^ 64`. -/
structure FundedRound (P : Primitives) (st : Storage) (inp : RoundInput) : Prop where
  pays : ∀ account, 0 ≤ held st inp.base account + (inp.netChange P account).1 ∧
    0 ≤ held st inp.quote account + (inp.netChange P account).2
  fits : ∀ account, held st inp.base account + (inp.netChange P account).1 < 2 ^ 64 ∧
    held st inp.quote account + (inp.netChange P account).2 < 2 ^ 64
  feesFit : AlongRun (chargeFee inp.base) (FeeFits inp.base) (inp.settled P st) inp.ps.bindings

section Funded

variable {P : Primitives} {st st' mid : Storage} {item : WorkItem} {inp : RoundInput}
  {floors : List (UInt32 × UInt64)}

theorem FundedRound.inRange (h : FundedRound P st inp) (hassets : inp.base ≠ inp.quote) :
    ∀ d ∈ inp.deltas P, InRange st inp.base inp.quote d := by
  intro d hd
  have hpays := h.pays d.1
  have hfits := h.fits d.1
  rw [RoundInput.netChange_of_mem hd] at hpays hfits
  refine ⟨fun asset ↦ ?_, fun heq ↦ absurd heq hassets⟩
  unfold changeOf
  by_cases hbase : asset = inp.base
  · subst hbase
    rw [if_pos rfl, if_neg hassets, add_zero]
    exact ⟨hpays.1, hfits.1⟩
  · by_cases hquote : asset = inp.quote
    · subst hquote
      rw [if_neg hbase, if_pos rfl, zero_add]
      exact ⟨hpays.2, hfits.2⟩
    · rw [if_neg hbase, if_neg hquote, add_zero, add_zero]
      exact ⟨held_nonneg _ _ _, Int.ofNat_lt.mpr (UInt64.toNat_lt _)⟩

/-- The balances an accepted round leaves. -/
theorem RoundDelivery.balances (h : RoundDelivery P st item inp floors mid st') :
    AgreeOn balanceKeys st' (inp.ps.bindings.foldl (chargeFee inp.base) (inp.settled P st)) := by
  have hledger := h.step.ledger_eq
  have hdecode := decodeSettlement_sections h.input (roundId P item.payload.val)
  obtain ⟨-, -, hbase, hquote⟩ := output_header P inp (roundId P item.payload.val)
  rw [hbase, hquote] at hledger
  intro k hk
  rw [hledger k (Or.inl hk), agreeOn_settlement hdecode _ _ k hk]
  simp only [RoundInput.sections, decodeBindings_encodeBindings]
  rfl

/-- The treasury's quote balance only takes the residual. -/
theorem RoundInput.netChange_treasury (hlen : inp.orders.length ≤ 2 ^ 32)
    (hsafe : SidesSafe (inp.orders.map Order.label))
    (htreasury : ∀ o ∈ inp.orders, o.account ≠ feeAccount) :
    0 ≤ (inp.netChange P feeAccount).2 := by
  have hown : Engine.netChange (clear P inp.orders).price scale (inp.entries P) feeAccount = 0 := by
    refine netChange_of_notMem _ _ fun e he heq ↦ ?_
    obtain ⟨o, ho, haccount⟩ := mem_accounts_settleEntries he
    exact htreasury o ho (haccount.trans heq)
  have hresid := sum_quoteChange_nonpos (clear P inp.orders).price scale
    (sum_baseChange_settleEntries (P := P) hlen hsafe)
  rw [RoundInput.netChange, RoundInput.deltas, amount_settleDeltas, hown, if_pos rfl, zero_add]
  exact neg_nonneg.mpr hresid

/-- What an accepted round that traded writes to the market's tape. -/
theorem RoundDelivery.tape (h : RoundDelivery P st item inp floors mid st')
    (hsafe : SidesSafe (inp.orders.map Order.label)) (hvolume : 0 < (clear P inp.orders).volume) :
    getU64 st' (.lp inp.market) = (clear P inp.orders).price.toUInt64 ∧
      getU64 st' (.cv inp.market) = getU64 st (.cv inp.market) + (clear P inp.orders).volume := by
  have hlen := h.orders_length_lt.le
  have hledger := h.step.ledger_eq
  rw [RoundDelivery.market_eq] at hledger
  have hdecode := decodeSettlement_sections h.input (roundId P item.payload.val)
  have hbuys := sum_side_settleEntries (P := P) hlen hsafe .buy
  have hentries : inp.entries P ≠ [] := by
    intro hnil
    rw [RoundInput.entries] at hnil
    rw [hnil] at hbuys
    exact absurd hvolume (by rw [UInt64.lt_iff_toNat_lt, ← hbuys]; simp)
  have hsum : (((inp.entries P).filter fun e ↦ e.side == .buy).map fun e ↦ e.qty.toUInt64).sum =
      (clear P inp.orders).volume := by
    have hwords : ((((inp.entries P).filter fun e ↦ e.side == .buy).map fun e ↦
        e.qty.toUInt64).map UInt64.toNat) =
        ((inp.entries P).filter fun e ↦ e.side == .buy).map fun e ↦ e.qty.toNat := by
      simp [Function.comp_def]
    rw [← UInt64.toNat_inj, toNat_sum_of_lt, hwords]
    · exact hbuys
    · rw [hwords]
      exact lt_of_eq_of_lt hbuys (UInt64.toNat_lt _)
  obtain ⟨hprice, hcum⟩ := tape_settlement st
    (u32At (inp.output P (roundId P item.payload.val)) 5)
    (u32At (inp.output P (roundId P item.payload.val)) 9) hdecode hentries inp.market
    (inp.sections P (roundId P item.payload.val)).trailer.bindings
  constructor
  · rw [getU64, hledger _ (Or.inr (Or.inl rfl)), hprice, u64At_u32Bytes]
  · rw [getU64, hledger _ (Or.inr (Or.inr rfl)), ← getU64, hcum]
    exact congrArg _ hsum

/-- Accounts without a delta are funded anyway. -/
theorem fundedRound_of_deltas
    (hpays : ∀ d ∈ inp.deltas P, 0 ≤ held st inp.base d.1 + d.2.1 ∧
      0 ≤ held st inp.quote d.1 + d.2.2)
    (hfits : ∀ d ∈ inp.deltas P, held st inp.base d.1 + d.2.1 < 2 ^ 64 ∧
      held st inp.quote d.1 + d.2.2 < 2 ^ 64)
    (hfees : AlongRun (chargeFee inp.base) (FeeFits inp.base) (inp.settled P st) inp.ps.bindings) :
    FundedRound P st inp := by
  have hcases : ∀ account, (∃ d ∈ inp.deltas P, d.1 = account) ∨ inp.netChange P account = 0 := by
    intro account
    by_cases hmem : account ∈ (inp.deltas P).map Prod.fst
    · exact Or.inl (List.mem_map.mp hmem)
    · exact Or.inr (amount_of_notMem hmem)
  have hheld : ∀ asset account, held st asset account < 2 ^ 64 :=
    fun _ _ ↦ Int.ofNat_lt.mpr (UInt64.toNat_lt _)
  refine ⟨fun account ↦ ?_, fun account ↦ ?_, hfees⟩
  · rcases hcases account with ⟨d, hd, rfl⟩ | hzero
    · rw [RoundInput.netChange_of_mem hd]
      exact hpays d hd
    · rw [hzero, Prod.fst_zero, Prod.snd_zero, add_zero, add_zero]
      exact ⟨held_nonneg _ _ _, held_nonneg _ _ _⟩
  · rcases hcases account with ⟨d, hd, rfl⟩ | hzero
    · rw [RoundInput.netChange_of_mem hd]
      exact hfits d hd
    · rw [hzero, Prod.fst_zero, Prod.snd_zero, add_zero, add_zero]
      exact ⟨hheld _ _, hheld _ _⟩

end Funded

/-- An accepted, funded round on distinct ids keeps the totals of base and quote, touches no other
asset, does not lower the treasury's quote balance, and, when it trades, records its price and adds
its volume to a 64-bit counter. -/
theorem funded_round_conserves (P : Primitives) {st st' : Storage} {item : WorkItem}
    {inp : RoundInput} (hinput : roundInput P item.payload.val = some inp)
    (haccepted : deliver P st item = (st', .accepted)) (hassets : inp.base ≠ inp.quote)
    (hids : (inp.orders.map Order.id).Nodup)
    (htreasury : ∀ o ∈ inp.orders, o.account ≠ feeAccount) (hfunded : FundedRound P st inp) :
    circulating st' inp.base = circulating st inp.base ∧
    circulating st' inp.quote = circulating st inp.quote ∧
    (∀ asset, asset ≠ inp.base → asset ≠ inp.quote → ∀ account,
      getBal st' asset account = getBal st asset account) ∧
    getBal st inp.quote feeAccount ≤ getBal st' inp.quote feeAccount ∧
    (0 < (clear P inp.orders).volume →
      getU64 st' (.lp inp.market) = (clear P inp.orders).price.toUInt64 ∧
      (getU64 st' (.cv inp.market)).toNat =
        ((getU64 st (.cv inp.market)).toNat + (clear P inp.orders).volume.toNat) % 2 ^ 64) := by
  obtain ⟨floors, mid, hdelivery⟩ := roundDelivery_of_input hinput haccepted
  have hlen := hdelivery.orders_length_lt.le
  have hsafe : SidesSafe (inp.orders.map Order.label) := Or.inl (sidesAgree_of_nodup hids)
  have hrange := hfunded.inRange hassets
  have hbalances := hdelivery.balances
  have htotal : ∀ asset, circulating st' asset = circulating st asset := by
    intro asset
    rw [circulating_of_agreeOn hbalances, circulating_chargeFees hfunded.feesFit]
    exact circulating_settle (inp.nodup_deltas P) hrange (RoundInput.sum_deltas hlen hsafe) asset
  have hread : ∀ asset account, asset ≠ inp.base →
      getBal st' asset account = getBal (inp.settled P st) asset account := by
    intro asset account hbase
    rw [hbalances.getBal_eq subset_rfl]
    exact getBal_foldl (fun st b _ ↦ getBal_chargeFee_ne hbase st b account) _
  refine ⟨htotal _, htotal _, ?_, ?_, ?_⟩
  · intro asset hbase hquote account
    rw [hread asset account hbase]
    exact getBal_foldl (fun st d _ ↦ getBal_settleAccount_ne hbase hquote st d account) _
  · have hheld := held_settle (inp.nodup_deltas P) hrange inp.quote feeAccount
    have hresid := RoundInput.netChange_treasury (P := P) hlen hsafe htreasury
    rw [changeOf, if_neg (Ne.symm hassets), if_pos rfl, zero_add] at hheld
    rw [hread _ _ (Ne.symm hassets), UInt64.le_iff_toNat_le]
    unfold held at hheld
    unfold RoundInput.netChange at hresid
    unfold RoundInput.settled
    omega
  · intro hvolume
    obtain ⟨hprice, hcum⟩ := hdelivery.tape hsafe hvolume
    refine ⟨hprice, ?_⟩
    rw [hcum, UInt64.toNat_add]

/-! ### A volume counter at its end -/

/-- Both accounts can pay, and market 0 has traded `2 ^ 64 - 1` units before. -/
def fullVolumeStore : Storage :=
  setU64 (setBal (setBal (Storage.set (Storage.set Store.empty (.mkt 0) (u32Bytes 1 ++ u32Bytes 2))
    (.book 0) (encodeOrders crossedBook)) 1 2 10) 2 1 1) (.cv 0) (UInt64.ofNat (2 ^ 64 - 1))

def crossedItem : WorkItem := ⟨10, crossedPayload⟩

theorem crossedRound_funded : FundedRound Primitives.toy fullVolumeStore crossedRound :=
  fundedRound_of_deltas (by decide +kernel) (by decide +kernel) trivial

/-- A funded round keeps the total of the asset it trades. -/
theorem crossedItem_conserves :
    circulating (deliver Primitives.toy fullVolumeStore crossedItem).1 crossedRound.base =
      circulating fullVolumeStore crossedRound.base := by
  have hinput : roundInput Primitives.toy crossedItem.payload.val = some crossedRound := by
    decide +kernel
  have hverdict : (deliver Primitives.toy fullVolumeStore crossedItem).2 = .accepted := by
    decide +kernel
  have haccepted : deliver Primitives.toy fullVolumeStore crossedItem =
      ((deliver Primitives.toy fullVolumeStore crossedItem).1, .accepted) := by
    rw [← hverdict]
  exact (funded_round_conserves Primitives.toy hinput haccepted (by decide +kernel)
    (by decide +kernel) (by decide +kernel) crossedRound_funded).1

/-- Ten units trade, and the cumulative volume falls from `2 ^ 64 - 1` to nine. -/
theorem crossedItem_volume_wraps :
    roundInput Primitives.toy crossedItem.payload.val = some crossedRound ∧
      crossedRound.base ≠ crossedRound.quote ∧ (crossedRound.orders.map Order.id).Nodup ∧
      (∀ o ∈ crossedRound.orders, o.account ≠ feeAccount) ∧
      FundedRound Primitives.toy fullVolumeStore crossedRound ∧
      (deliver Primitives.toy fullVolumeStore crossedItem).2 = .accepted ∧
      (clear Primitives.toy crossedRound.orders).volume = 10 ∧
      (getU64 fullVolumeStore (.cv 0)).toNat = 2 ^ 64 - 1 ∧
      getU64 (deliver Primitives.toy fullVolumeStore crossedItem).1 (.cv 0) = 9 :=
  ⟨by decide +kernel, by decide +kernel, by decide +kernel, by decide +kernel, crossedRound_funded,
    by decide +kernel, by decide +kernel, by decide +kernel, by decide +kernel⟩

end Jamswap.Service
