import Jamswap.Service.Custody

/-!
# Fees and batching

A round charges the flat fee once per new order, after its fills have settled, and takes no more
than the payer's base balance at that moment. So the fee of an order depends on the round it is
introduced in only through that cap. In rounds whose payers hold, beforehand, what their sells offer
and the fees of their new orders, the cap never binds, and every account pays the flat fee once per
order it introduced, however the orders are grouped (`fees_independent_of_batching`). What an
account pays is read off its balances, before and after the fees of a round are charged. Without
cover, a buyer who holds no base pays for an order that fills at once and nothing for the same order
if it rests first (`restingBuyer_pays_less`).
-/

namespace Jamswap.Service

open Library Engine Storage

/-- What charging a new order takes from an account. -/
def feeTaken (base account : UInt32) (st : Storage) (b : Binding) : ℕ :=
  if b.account = account then (min feeFlat (getBal st base b.account)).toNat else 0

/-- The number of an account's orders among new ones. -/
def introducedBy (bindings : List Binding) (account : UInt32) : ℕ :=
  bindings.countP fun b ↦ b.account == account

/-- The base an account's orders offer to sell. -/
def offeredBy (orders : List Order) (account : UInt32) : ℕ :=
  ((orders.filter fun o ↦ o.account == account && o.side == .sell).map fun o ↦ o.qty.toNat).sum

/-- Base and quote differ, orders that share an id are of one account and side, and every account
with a new order holds the base it offers and its fees. -/
structure RoundInput.FeesCovered (inp : RoundInput) (st : Storage) : Prop where
  assets : inp.base ≠ inp.quote
  ids : SharedIdsAgree (inp.orders.map Order.label)
  covers : ∀ b ∈ inp.ps.bindings,
    feeFlat.toNat * introducedBy inp.ps.bindings b.account + offeredBy inp.orders b.account ≤
      (getBal st inp.base b.account).toNat

instance (inp : RoundInput) (st : Storage) : Decidable (inp.FeesCovered st) :=
  have : Decidable (SharedIdsAgree (inp.orders.map Order.label)) := by
    unfold SharedIdsAgree
    infer_instance
  decidable_of_iff (inp.base ≠ inp.quote ∧ SharedIdsAgree (inp.orders.map Order.label) ∧
      ∀ b ∈ inp.ps.bindings,
        feeFlat.toNat * introducedBy inp.ps.bindings b.account + offeredBy inp.orders b.account ≤
          (getBal st inp.base b.account).toNat)
    ⟨fun h ↦ ⟨h.1, h.2.1, h.2.2⟩, fun h ↦ ⟨h.assets, h.ids, h.covers⟩⟩

/-! ### Charging -/

section Charging

variable {st : Storage} {base account : UInt32}

/-- A trader loses exactly the fee. -/
theorem getBal_chargeFee_trader (base : UInt32) (st : Storage) (h : account ≠ feeAccount)
    (b : Binding) :
    (getBal (chargeFee base st b) base account).toNat + feeTaken base account st b =
      (getBal st base account).toNat := by
  have hcap := UInt64.le_iff_toNat_le.mp (min_le_right_u64 feeFlat (getBal st base b.account))
  unfold feeTaken
  simp only [chargeFee]
  split_ifs with hpos hpayer hpayer
  · subst hpayer
    rw [getBal_setBal, if_neg (fun heq ↦ h heq.2), getBal_setBal_same,
      UInt64.toNat_sub_of_le _ _ (min_le_right_u64 _ _)]
    omega
  · rw [getBal_setBal, if_neg (fun heq ↦ h heq.2), getBal_setBal,
      if_neg (fun heq ↦ hpayer heq.2.symm), Nat.add_zero]
  · have hzero : (min feeFlat (getBal st base b.account)).toNat = 0 := by
      rw [UInt64.lt_iff_toNat_lt] at hpos
      exact Nat.eq_zero_of_not_pos hpos
    rw [hzero, Nat.add_zero]
  · rfl

/-- Nobody loses more than the fee; the treasury loses nothing. -/
theorem le_getBal_chargeFee (base account : UInt32) (st : Storage) (b : Binding) :
    (getBal st base account).toNat ≤
      (getBal (chargeFee base st b) base account).toNat + feeTaken base account st b := by
  by_cases htrader : account = feeAccount
  · subst htrader
    have hcap := UInt64.le_iff_toNat_le.mp (min_le_right_u64 feeFlat (getBal st base b.account))
    unfold feeTaken
    simp only [chargeFee]
    split_ifs with hpos hpayer hpayer
    · rw [getBal_setBal_same, hpayer, getBal_setBal_same]
      have hadd := le_toNat_satAdd (getBal st base feeAccount -
        min feeFlat (getBal st base feeAccount)) (min feeFlat (getBal st base feeAccount))
      rw [UInt64.toNat_sub_of_le _ _ (min_le_right_u64 _ _)] at hadd
      omega
    · rw [getBal_setBal_same, getBal_setBal, if_neg (fun heq ↦ hpayer heq.2.symm)]
      exact le_toNat_satAdd _ _
    · exact Nat.le_add_right _ _
    · exact Nat.le_add_right _ _
  · exact (getBal_chargeFee_trader base st htrader b).ge

/-- The fees of a round come off a trader's balance. -/
theorem getBal_chargeFees_trader (st : Storage) (base : UInt32) (h : account ≠ feeAccount)
    (bindings : List Binding) :
    (getBal (bindings.foldl (chargeFee base) st) base account).toNat +
        totalOver (chargeFee base) (feeTaken base account) st bindings =
      (getBal st base account).toNat := by
  induction bindings generalizing st with
  | nil => rfl
  | cons b bindings ih =>
    have hstep := getBal_chargeFee_trader base st h b
    have hrest := ih (chargeFee base st b)
    rw [List.foldl_cons, totalOver]
    omega

theorem le_getBal_chargeFees (st : Storage) (base account : UInt32) (bindings : List Binding) :
    (getBal st base account).toNat ≤
      (getBal (bindings.foldl (chargeFee base) st) base account).toNat +
        totalOver (chargeFee base) (feeTaken base account) st bindings := by
  induction bindings generalizing st with
  | nil => exact Nat.le_refl _
  | cons b bindings ih =>
    have hstep := le_getBal_chargeFee base account st b
    have hrest := ih (chargeFee base st b)
    rw [List.foldl_cons, totalOver]
    omega

/-- A balance that covers the fees of the account's new orders pays each in full. -/
theorem totalOver_feeTaken {bindings : List Binding}
    (h : feeFlat.toNat * introducedBy bindings account ≤ (getBal st base account).toNat) :
    totalOver (chargeFee base) (feeTaken base account) st bindings =
      feeFlat.toNat * introducedBy bindings account := by
  induction bindings generalizing st with
  | nil => rfl
  | cons b bindings ih =>
    have hstep := le_getBal_chargeFee base account st b
    have htaken : feeTaken base account st b =
        if b.account = account then feeFlat.toNat else 0 := by
      unfold feeTaken
      split_ifs with hpayer
      · rw [introducedBy, List.countP_cons_of_pos (by simp [hpayer]), Nat.mul_succ] at h
        rw [hpayer, toNat_min_u64]
        omega
      · rfl
    have hcount : introducedBy (b :: bindings) account =
        introducedBy bindings account + if b.account = account then 1 else 0 := by
      simp [introducedBy, List.countP_cons]
    rw [hcount, Nat.mul_add] at h ⊢
    rw [totalOver, ih, htaken, Nat.add_comm]
    · congr 1
      split_ifs <;> rfl
    · rw [htaken] at hstep
      split_ifs at h hstep <;> omega

end Charging

/-! ### Settling -/

section Settling

variable {st : Storage} {base quote : UInt32}

theorem applyDelta_zero (bal : UInt64) : applyDelta bal 0 = bal := by
  have hlt := bal.toNat_lt
  rw [← UInt64.toNat_inj, applyDelta, UInt64.toNat_ofNat']
  omega

/-- Losing at most `n` leaves all but `n`. -/
theorem le_toNat_applyDelta {bal : UInt64} {d : ℤ} {n : ℕ} (h : -(n : ℤ) ≤ d) :
    bal.toNat ≤ (applyDelta bal d).toNat + n := by
  have hlt := bal.toNat_lt
  rw [applyDelta, UInt64.toNat_ofNat']
  omega

/-- With different assets a base balance moves by the account's own delta, clamped. -/
theorem getBal_settle (hassets : base ≠ quote) {deltas : List (UInt32 × ℤ × ℤ)}
    (hnodup : (deltas.map Prod.fst).Nodup) (account : UInt32) :
    getBal (deltas.foldl (settleAccount base quote) st) base account =
      applyDelta (getBal st base account) (amount deltas account).1 := by
  induction deltas generalizing st with
  | nil => exact (applyDelta_zero _).symm
  | cons d deltas ih =>
    rw [List.map_cons, List.nodup_cons] at hnodup
    have hone : getBal (settleAccount base quote st d) base account =
        if account = d.1 then applyDelta (getBal st base account) d.2.1
        else getBal st base account := by
      simp only [settleAccount, getBal_setBal, hassets, false_and, if_false, true_and]
      split_ifs with haccount
      · rw [haccount]
      · rfl
    rw [List.foldl_cons, ih hnodup.2, hone, amount_cons]
    by_cases haccount : account = d.1
    · rw [if_pos haccount, if_pos haccount.symm, haccount, amount_of_notMem hnodup.1, add_zero]
      exact applyDelta_zero _
    · rw [if_neg haccount, if_neg (Ne.symm haccount), zero_add]

/-- An account keeps what its orders did not offer. -/
theorem RoundInput.FeesCovered.le_settled {P : Primitives} {inp : RoundInput}
    (h : inp.FeesCovered st) (account : UInt32) :
    (getBal st inp.base account).toNat ≤
      (getBal (inp.settled P st) inp.base account).toNat + offeredBy inp.orders account := by
  rw [RoundInput.settled, getBal_settle h.assets (inp.nodup_deltas P)]
  apply le_toNat_applyDelta
  have hsold : settledTo (inp.entries P) account .sell ≤ offeredBy inp.orders account :=
    calc settledTo (inp.entries P) account .sell
        = allottedTo P inp.orders account .sell :=
          (firstsAgree_of_shared h.ids).settledTo_eq account .sell
      _ ≤ eligibleFor inp.orders (clear P inp.orders).price account .sell :=
          allottedTo_le_eligibleFor P inp.orders account .sell
      _ ≤ offeredBy inp.orders account := by
          apply List.Sublist.sum_le_sum
          · apply List.Sublist.map
            apply List.monotone_filter_right
            intro o ho
            exact (Bool.and_eq_true_iff.mp ho).1
          · exact fun _ _ ↦ Nat.zero_le _
  have hnet : (amount (inp.deltas P) account).1 =
      (Engine.netChange (clear P inp.orders).price scale (inp.entries P) account).1 := by
    rw [RoundInput.deltas, amount_settleDeltas, Prod.fst_add]
    split_ifs <;> exact add_zero _
  rw [hnet]
  have hlow := neg_settledTo_le_netChange (clear P inp.orders).price scale (inp.entries P) account
  omega

end Settling

/-! ### Rounds and runs -/

section Runs

variable (P : Primitives)

/-- The new public orders of a round, with their bindings. -/
def newOrders (item : WorkItem) : List (Order × Binding) :=
  match roundInput P item.payload.val with
  | some inp => inp.ps.admitted
  | none => []

/-- What a delivery charges an account: how far an accepted round takes its base balance below what
the settled fills made of it. -/
def feesPaid (account : UInt32) (st : Storage) (item : WorkItem) : ℕ :=
  match (deliver P st item).2, roundInput P item.payload.val with
  | .accepted, some inp => (getBal (inp.settled P st) inp.base account).toNat -
      (getBal (deliver P st item).1 inp.base account).toNat
  | _, _ => 0

/-- What a round fills of an order id. -/
def filledIn (id : UInt32) (item : WorkItem) : ℕ :=
  match roundInput P item.payload.val with
  | some inp => (filledUnder (clear P inp.orders).fills id).toNat
  | none => 0

/-- The item is a round, and it is accepted. -/
def AcceptedRound (st : Storage) (item : WorkItem) : Prop :=
  (deliver P st item).2 = .accepted ∧ (roundInput P item.payload.val).isSome

/-- The payers of the round hold what they offer and their fees. -/
def CoveredRound (st : Storage) (item : WorkItem) : Prop :=
  ∀ inp, roundInput P item.payload.val = some inp → inp.FeesCovered st

instance (st : Storage) (item : WorkItem) : Decidable (AcceptedRound P st item) :=
  inferInstanceAs (Decidable (_ ∧ _))

instance (st : Storage) (item : WorkItem) : Decidable (CoveredRound P st item) :=
  decidable_of_iff (∀ inp ∈ roundInput P item.payload.val, inp.FeesCovered st) Iff.rfl

/-- Run the rounds of a grouping. -/
abbrev deliverRound (st : Storage) (item : WorkItem) : Storage := (deliver P st item).1

variable {P} {st : Storage} {item : WorkItem} {rounds : List WorkItem} {account : UInt32}

/-- A covered round charges the flat fee once per new order. The treasury takes the fees, so it is
not seen to pay any for orders of its own. -/
theorem feesPaid_of_covered (haccepted : AcceptedRound P st item)
    (hcovered : CoveredRound P st item)
    (hpayer : account ≠ feeAccount ∨ introducedBy ((newOrders P item).map Prod.snd) account = 0) :
    feesPaid P account st item =
      feeFlat.toNat * introducedBy ((newOrders P item).map Prod.snd) account := by
  obtain ⟨hverdict, hsome⟩ := haccepted
  obtain ⟨inp, hinput⟩ := Option.isSome_iff_exists.mp hsome
  obtain ⟨floors, mid, hdelivery⟩ := roundDelivery_of_input hinput (Prod.ext rfl hverdict)
  have h := hcovered inp hinput
  rw [newOrders, hinput] at hpayer ⊢
  change account ≠ feeAccount ∨ introducedBy inp.ps.bindings account = 0 at hpayer
  have htaken : totalOver (chargeFee inp.base) (feeTaken inp.base account) (inp.settled P st)
      inp.ps.bindings = feeFlat.toNat * introducedBy inp.ps.bindings account := by
    apply totalOver_feeTaken
    by_cases hnew : ∃ b ∈ inp.ps.bindings, b.account = account
    · obtain ⟨b, hb, rfl⟩ := hnew
      have hcovers := h.covers b hb
      have hsettled := h.le_settled (P := P) b.account
      exact Nat.le_of_add_le_add_right (hcovers.trans hsettled)
    · have hnone : introducedBy inp.ps.bindings account = 0 := by
        refine List.countP_eq_zero.mpr fun b hb heq ↦ hnew ⟨b, hb, beq_iff_eq.mp heq⟩
      rw [hnone, Nat.mul_zero]
      exact Nat.zero_le _
  have hpaid : feesPaid P account st item = (getBal (inp.settled P st) inp.base account).toNat -
      (getBal (inp.ps.bindings.foldl (chargeFee inp.base) (inp.settled P st)) inp.base
        account).toNat := by
    simp only [feesPaid, hverdict, hinput, hdelivery.balances.getBal_eq subset_rfl]
  rw [hpaid]
  change _ = feeFlat.toNat * introducedBy inp.ps.bindings account
  rcases hpayer with htrader | hnone
  · have hloss := getBal_chargeFees_trader (inp.settled P st) inp.base htrader inp.ps.bindings
    omega
  · have hloss := le_getBal_chargeFees (inp.settled P st) inp.base account inp.ps.bindings
    rw [hnone, Nat.mul_zero] at htaken ⊢
    omega

theorem feesPaid_run (haccepted : AlongRun (deliverRound P) (AcceptedRound P) st rounds)
    (hcovered : AlongRun (deliverRound P) (CoveredRound P) st rounds)
    (hpayer : account ≠ feeAccount ∨
      introducedBy ((rounds.flatMap (newOrders P)).map Prod.snd) account = 0) :
    totalOver (deliverRound P) (feesPaid P account) st rounds =
      feeFlat.toNat * introducedBy ((rounds.flatMap (newOrders P)).map Prod.snd) account := by
  induction rounds generalizing st with
  | nil => rfl
  | cons item rounds ih =>
    have hsplit : introducedBy (((item :: rounds).flatMap (newOrders P)).map Prod.snd) account =
        introducedBy ((newOrders P item).map Prod.snd) account +
          introducedBy ((rounds.flatMap (newOrders P)).map Prod.snd) account := by
      rw [List.flatMap_cons, List.map_append, introducedBy, introducedBy, introducedBy,
        List.countP_append]
    rw [hsplit, Nat.add_eq_zero_iff] at hpayer
    rw [totalOver, ih haccepted.2 hcovered.2 (hpayer.imp_right And.right),
      feesPaid_of_covered haccepted.1 hcovered.1 (hpayer.imp_right And.left), hsplit, Nat.mul_add]

end Runs

/-- Two groupings of one sequence of new orders into accepted rounds, each with its payers covered,
charge every account the same: the flat fee once per order it introduced. The treasury, to which the
fees go, is left out if it introduced orders itself. -/
theorem fees_independent_of_batching (P : Primitives) (st : Storage)
    (rounds rounds' : List WorkItem)
    (haccepted : AlongRun (deliverRound P) (AcceptedRound P) st rounds)
    (haccepted' : AlongRun (deliverRound P) (AcceptedRound P) st rounds')
    (hsame : rounds.flatMap (newOrders P) = rounds'.flatMap (newOrders P))
    (hcovered : AlongRun (deliverRound P) (CoveredRound P) st rounds)
    (hcovered' : AlongRun (deliverRound P) (CoveredRound P) st rounds') (account : UInt32)
    (hpayer : account ≠ feeAccount ∨
      introducedBy ((rounds.flatMap (newOrders P)).map Prod.snd) account = 0) :
    totalOver (deliverRound P) (feesPaid P account) st rounds =
        totalOver (deliverRound P) (feesPaid P account) st rounds' ∧
      totalOver (deliverRound P) (feesPaid P account) st rounds =
        feeFlat.toNat * introducedBy ((rounds.flatMap (newOrders P)).map Prod.snd) account := by
  rw [feesPaid_run haccepted hcovered hpayer, feesPaid_run haccepted' hcovered' (hsame ▸ hpayer),
    hsame]
  exact ⟨rfl, rfl⟩

/-! ### A buyer without base -/

/-- Account 2 holds 400 of the base asset of market 0, and account 1 holds 50 of its quote. -/
def buyerWithoutBase : Storage :=
  runItems Primitives.toy Store.empty
    (openingItems ++ [depositItem 4 1 2 400, depositItem 5 2 1 50])

/-- The buy of `tradeItem` in a round of its own. -/
def buyItem : WorkItem :=
  ⟨6, ⟨smatchPayload 0 1 2 (publicSectionBytes [signedTen 1 7 .buy 1] [] []), by decide +kernel⟩⟩

/-- The sell of `tradeItem`, on the book the buy left. -/
def sellItem : WorkItem :=
  ⟨7, ⟨smatchPayload 0 1 2 (publicSectionBytes [signedTen 2 8 .sell 2] []
    (encodeOrders [⟨1, 7, .buy, 5, 10⟩])), by decide +kernel⟩⟩

/-- The buyer also holds base. -/
def buyerWithBase : Storage := setBal buyerWithoutBase 1 1 300

/-- In one round and in two, a buyer with base pays the flat fee. -/
theorem fees_independent_of_batching_buyerWithBase :
    totalOver (deliverRound Primitives.toy) (feesPaid Primitives.toy 1) buyerWithBase [tradeItem] =
        totalOver (deliverRound Primitives.toy) (feesPaid Primitives.toy 1) buyerWithBase
          [buyItem, sellItem] ∧
      totalOver (deliverRound Primitives.toy) (feesPaid Primitives.toy 1)
        buyerWithBase [tradeItem] =
        300 := by
  have h := fees_independent_of_batching Primitives.toy buyerWithBase [tradeItem]
    [buyItem, sellItem] (by decide +kernel) (by decide +kernel) (by decide +kernel)
    (by decide +kernel) (by decide +kernel) 1 (Or.inl (by decide))
  exact ⟨h.1, h.2.trans (by decide +kernel)⟩

/-- The same orders in the same sequence, both ways filled: together they cost the buyer ten units,
and one after the other nothing. -/
theorem restingBuyer_pays_less :
    AlongRun (deliverRound Primitives.toy) (AcceptedRound Primitives.toy) buyerWithoutBase
        [tradeItem] ∧
      AlongRun (deliverRound Primitives.toy) (AcceptedRound Primitives.toy) buyerWithoutBase
        [buyItem, sellItem] ∧
      [tradeItem].flatMap (newOrders Primitives.toy) =
        [buyItem, sellItem].flatMap (newOrders Primitives.toy) ∧
      (∀ a ∈ [tradeItem].flatMap (newOrders Primitives.toy),
        ([tradeItem].map (filledIn Primitives.toy a.1.id)).sum = 10 ∧
          ([buyItem, sellItem].map (filledIn Primitives.toy a.1.id)).sum = 10) ∧
      totalOver (deliverRound Primitives.toy) (feesPaid Primitives.toy 1) buyerWithoutBase
        [tradeItem] = 10 ∧
      totalOver (deliverRound Primitives.toy) (feesPaid Primitives.toy 1) buyerWithoutBase
        [buyItem, sellItem] = 0 := by
  decide +kernel

end Jamswap.Service
