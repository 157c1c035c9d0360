import Jamswap.Engine.Settlement
import Mathlib.Algebra.Order.BigOperators.Group.List
import Mathlib.Algebra.Order.Ring.Nat

/-!
# Which order a fill belongs to

The rationing serves positions of the batch; the engine then reports the fills under order ids, and
every later stage goes back from ids to orders. Here the two are compared. `allotted` is what a
position was given: never more than its quantity (`allotted_le_units`), and summed over any set of
positions it is the part of the allocation that went there (`sum_allotted_filter`). The fills
reported under an id are what all the positions carrying that id were given (`toNat_filledUnder`),
so they are an order's own exactly when it shares its id with nobody (`toNat_remainder_of_unique`).

A batch in which all limits are equal and both sides offer the same quantity trades it all
(`allotted_eq_units_of_balanced`); such batches show what goes wrong when ids repeat.
-/

namespace Jamswap.Engine

open Library

variable {P : Primitives} {orders : List Order}

/-! ### Units per position -/

variable {r : OrderRef}

theorem allotted_eq_amount (h : r ∈ refs orders) :
    allotted P orders r.index = amount (allocation P orders) r := by
  unfold allotted amount
  congr 2
  refine List.filter_congr fun a ha ↦ ?_
  have hiff : a.1.index = r.index ↔ a.1 = r :=
    ⟨eq_of_index_eq (allocation_spec ha).1 h, congrArg OrderRef.index⟩
  rw [beq_eq_decide]
  exact decide_eq_decide.mpr hiff

/-- Summed over any positions, the allotted units are what the allocation gave them. -/
theorem sum_allotted_filter (P : Primitives) (orders : List Order) (p : OrderRef → Bool) :
    (((refs orders).filter p).map fun r ↦ allotted P orders r.index).sum =
      (((allocation P orders).filter fun a ↦ p a.1).map Prod.snd).sum := by
  have hamount : ((refs orders).filter p).map (fun r ↦ allotted P orders r.index) =
      ((refs orders).filter p).map (amount (allocation P orders)) :=
    List.map_congr_left fun r hr ↦ allotted_eq_amount (List.mem_of_mem_filter hr)
  rw [hamount, sum_map_amount ((nodup_refs orders).filter p)]
  congr 2
  refine List.filter_congr fun a ha ↦ ?_
  simp [List.mem_filter, (allocation_spec ha).1]

theorem allotted_le_units (h : r ∈ refs orders) : allotted P orders r.index ≤ r.units := by
  rw [allotted_eq_amount h]
  by_cases hserved : r ∈ (allocation P orders).map Prod.fst
  · obtain ⟨a, ha, rfl⟩ := List.mem_map.mp hserved
    rw [amount_of_mem (nodup_allocation P orders) ha]
    exact (allocation_spec ha).2.1
  · rw [amount_of_notMem hserved]
    exact Nat.zero_le _

/-! ### Fills under an id -/

theorem toNat_fill_qty {a : OrderRef × ℕ} (h : a ∈ allocation P orders) :
    (UInt32.ofNat a.2).toNat = a.2 := by
  have hlt : a.2 < 2 ^ 32 := (allocation_spec h).2.1.trans_lt a.1.order.qty.toNat_lt
  rw [UInt32.toNat_ofNat', Nat.mod_eq_of_lt hlt]

/-- What is reported under an id is what all the positions with that id were given. -/
theorem toNat_filledUnder (hlen : orders.length ≤ 2 ^ 32) (id : UInt32) :
    (filledUnder (clear P orders).fills id).toNat =
      (((refs orders).filter fun r ↦ r.order.id == id).map fun r ↦
        allotted P orders r.index).sum := by
  set fills := (clear P orders).fills.filter fun f ↦ f.id == id with hfills
  have hcount : fills.length ≤ 2 ^ 32 :=
    (List.length_filter_le _ _).trans ((length_clear_fills_le P orders).trans hlen)
  have hwords : (fills.map fun f ↦ f.qty.toUInt64).map UInt64.toNat =
      fills.map fun f ↦ f.qty.toNat := by
    simp [Function.comp_def]
  rw [filledUnder, toNat_sum_of_lt (by rw [hwords]; exact sum_u32_lt Fill.qty fills hcount), hwords,
    sum_allotted_filter P orders fun r ↦ r.order.id == id, hfills, clear_fills, List.filter_map,
    List.map_map]
  refine congrArg List.sum (List.map_congr_left fun a ha ↦ ?_)
  exact toNat_fill_qty (List.mem_of_mem_filter ha)

/-- The units that traded under the order's id for other orders. -/
def namesakeUnits (P : Primitives) (orders : List Order) (r : OrderRef) : ℕ :=
  (((refs orders).filter fun r' ↦ r'.order.id == r.order.id && r'.index != r.index).map fun r' ↦
    allotted P orders r'.index).sum

/-- What is reported under an order's id is what it and its namesakes were given. -/
theorem toNat_filledUnder_eq (hlen : orders.length ≤ 2 ^ 32) (h : r ∈ refs orders) :
    (filledUnder (clear P orders).fills r.order.id).toNat =
      allotted P orders r.index + namesakeUnits P orders r := by
  have hperm : ((refs orders).filter fun r' ↦ r'.order.id == r.order.id).Perm
      (r :: (refs orders).filter fun r' ↦ r'.order.id == r.order.id && r'.index != r.index) := by
    refine (List.perm_ext_iff_of_nodup ((nodup_refs orders).filter _)
      (List.nodup_cons.mpr ⟨by simp, (nodup_refs orders).filter _⟩)).mpr fun r' ↦ ?_
    simp only [List.mem_cons, List.mem_filter, Bool.and_eq_true, beq_iff_eq, bne_iff_ne]
    constructor
    · rintro ⟨hmem, hid⟩
      by_cases hindex : r'.index = r.index
      · exact Or.inl (eq_of_index_eq hmem h hindex)
      · exact Or.inr ⟨hmem, hid, hindex⟩
    · rintro (rfl | ⟨hmem, hid, -⟩)
      · exact ⟨h, rfl⟩
      · exact ⟨hmem, hid⟩
  rw [toNat_filledUnder hlen, (hperm.map _).sum_eq, List.map_cons, List.sum_cons, namesakeUnits]

/-- What is reported for an order that shares its id with no other is what it was given. -/
theorem toNat_filledUnder_of_unique (hlen : orders.length ≤ 2 ^ 32) (h : r ∈ refs orders)
    (hunique : ∀ r' ∈ refs orders, r'.order.id = r.order.id → r' = r) :
    (filledUnder (clear P orders).fills r.order.id).toNat = allotted P orders r.index := by
  have hnone : ((refs orders).filter fun r' ↦
      r'.order.id == r.order.id && r'.index != r.index) = [] := by
    refine List.filter_eq_nil_iff.mpr fun r' hr' hother ↦ ?_
    simp only [Bool.and_eq_true, beq_iff_eq, bne_iff_ne] at hother
    exact hother.2 (congrArg OrderRef.index (hunique r' hr' hother.1))
  rw [toNat_filledUnder_eq hlen h, namesakeUnits, hnone]
  rfl

/-- An order that shares its id with no other keeps what it was not given. -/
theorem toNat_remainder_of_unique (hlen : orders.length ≤ 2 ^ 32) (h : r ∈ refs orders)
    (hunique : ∀ r' ∈ refs orders, r'.order.id = r.order.id → r' = r) :
    (r.order.remainder (clear P orders).fills).toNat = r.units - allotted P orders r.index := by
  have hfilled := toNat_filledUnder_of_unique (P := P) hlen h hunique
  have hle := allotted_le_units (P := P) h
  rw [Order.remainder, UInt64.toNat_sub_of_le, hfilled, UInt32.toNat_toUInt64]
  · rfl
  · rw [UInt64.le_iff_toNat_le, hfilled, UInt32.toNat_toUInt64]
    exact hle

/-! ### Settled quantities -/

/-- What an order shows of its identity: who is charged, under which id, on which side. -/
structure Label where
  account : UInt32
  id : UInt32
  side : Side
  deriving DecidableEq, Repr

def Order.label (o : Order) : Label := ⟨o.account, o.id, o.side⟩

/-- What rests shows what does not depend on the quantity of the orders it is left of, in their
order. -/
theorem map_resting_sublist {β : Type*} {f : Order → β} (hf : ∀ o q, f { o with qty := q } = f o)
    (orders : List Order) (c : Clearing) :
    ((resting orders c).map f).Sublist (orders.map f) := by
  induction orders with
  | nil => exact List.Sublist.refl _
  | cons o orders ih =>
    by_cases hrem : 0 < o.remainder c.fills
    · have hkept : resting (o :: orders) c =
          { o with qty := (o.remainder c.fills).toUInt32 } :: resting orders c := by
        simp only [resting, List.filterMap_cons, if_pos hrem]
      rw [hkept, List.map_cons, hf]
      exact ih.cons_cons (f o)
    · have hgone : resting (o :: orders) c = resting orders c := by
        simp only [resting, List.filterMap_cons, if_neg hrem]
      rw [hgone]
      exact ih.cons (f o)

/-- Orders that share an id belong to one account and stand on one side. -/
def SharedIdsAgree (labels : List Label) : Prop :=
  ∀ l ∈ labels, ∀ l' ∈ labels, l.id = l'.id → l = l'

/-- Nothing in the batch can trade with anything else. -/
def OneSided (labels : List Label) : Prop := ∃ side, ∀ l ∈ labels, l.side = side

/-- The order is the account's, on this side. -/
def Order.stands (account : UInt32) (side : Side) (o : Order) : Bool :=
  o.account == account && o.side == side

/-- The quantity a settlement charges to an account on a side. -/
def settledTo (entries : List SettleEntry) (account : UInt32) (side : Side) : ℕ :=
  ((entries.filter fun e ↦ e.account == account && e.side == side).map fun e ↦ e.qty.toNat).sum

/-- The units the rationing gave to an account's own orders on a side. -/
def allottedTo (P : Primitives) (orders : List Order) (account : UInt32) (side : Side) : ℕ :=
  (((refs orders).filter fun r ↦ r.order.account == account && r.order.side == side).map fun r ↦
    allotted P orders r.index).sum

/-- The quantity of an account's orders on a side whose limit admits the price. -/
def eligibleFor (orders : List Order) (price : UInt32) (account : UInt32) (side : Side) : ℕ :=
  ((orders.filter fun o ↦ o.account == account && o.side == side &&
    (o.bids price || o.asks price)).map fun o ↦ o.qty.toNat).sum

theorem allottedTo_eq (P : Primitives) (orders : List Order) (account : UInt32) (side : Side) :
    allottedTo P orders account side = (((allocation P orders).filter fun a ↦
      a.1.order.account == account && a.1.order.side == side).map Prod.snd).sum :=
  sum_allotted_filter P orders fun r ↦ r.order.account == account && r.order.side == side

/-- An account's own orders are never given more than its limits admit. -/
theorem allottedTo_le_eligibleFor (P : Primitives) (orders : List Order) (account : UInt32)
    (side : Side) :
    allottedTo P orders account side ≤ eligibleFor orders (clear P orders).price account side := by
  set price := (clear P orders).price
  set mine : Order → Bool := fun o ↦ o.account == account && o.side == side
  set admits : Order → Bool := fun o ↦ o.bids price || o.asks price
  have hserved : ((allocation P orders).filter fun a ↦ mine a.1.order) =
      (allocation P orders).filter fun a ↦ mine a.1.order && admits a.1.order := by
    refine List.filter_congr fun a ha ↦ ?_
    have hadmits : admits a.1.order := by
      rcases (allocation_spec ha).2.2 with ⟨hside, hlimit⟩ | ⟨hside, hlimit⟩
      · simp [admits, price, Order.bids, hside, hlimit]
      · simp [admits, price, Order.asks, hside, hlimit]
    rw [hadmits, Bool.and_true]
  calc allottedTo P orders account side
      = (((allocation P orders).filter fun a ↦ mine a.1.order).map Prod.snd).sum :=
        allottedTo_eq P orders account side
    _ = (((refs orders).filter fun r ↦ mine r.order && admits r.order).map fun r ↦
          allotted P orders r.index).sum := by
        rw [hserved, sum_allotted_filter P orders fun r ↦ mine r.order && admits r.order]
    _ ≤ (((refs orders).filter fun r ↦ mine r.order && admits r.order).map OrderRef.units).sum :=
        List.sum_le_sum fun r hr ↦ allotted_le_units (List.mem_of_mem_filter hr)
    _ = eligibleFor orders price account side :=
        sum_units_filter_refs orders fun o ↦ mine o && admits o

/-- The first order of the batch with the id of `o`. -/
def firstWithId (orders : List Order) (o : Order) : Order :=
  (orders.find? fun o' ↦ o'.id == o.id).getD o

theorem find?_firstWithId {o : Order} (h : o ∈ orders) :
    (orders.find? fun o' ↦ o'.id == o.id) = some (firstWithId orders o) := by
  have hfound : (orders.find? fun o' ↦ o'.id == o.id).isSome := by
    rw [List.find?_isSome]
    exact ⟨o, h, beq_self_eq_true _⟩
  obtain ⟨first, hfirst⟩ := Option.isSome_iff_exists.mp hfound
  rw [firstWithId, hfirst, Option.getD_some]

/-- A fill becomes an entry of the first order with its id. -/
theorem settleEntries_clear (P : Primitives) (orders : List Order) :
    settleEntries orders (clear P orders).fills =
      (allocation P orders).map fun a ↦ ⟨(firstWithId orders a.1.order).account,
        (firstWithId orders a.1.order).side, UInt32.ofNat a.2⟩ := by
  rw [settleEntries, clear_fills, List.filterMap_map, ← List.filterMap_eq_map]
  refine List.filterMap_congr fun a ha ↦ ?_
  have hmem : a.1.order ∈ orders := List.mem_of_getElem? (mem_refs_iff.mp (allocation_spec ha).1)
  simp only [Function.comp_apply, resolveFill, find?_firstWithId hmem, Option.map_some]

/-- A fill is charged to the first order with its id. -/
theorem settledTo_eq (P : Primitives) (orders : List Order) (account : UInt32) (side : Side) :
    settledTo (settleEntries orders (clear P orders).fills) account side =
      (((refs orders).filter fun r ↦ (firstWithId orders r.order).stands account side).map fun r ↦
        allotted P orders r.index).sum := by
  rw [sum_allotted_filter P orders fun r ↦ (firstWithId orders r.order).stands account side,
    settledTo, settleEntries_clear, List.filter_map, List.map_map]
  refine congrArg List.sum (List.map_congr_left fun a ha ↦ ?_)
  exact toNat_fill_qty (List.mem_of_mem_filter ha)

/-- The units of the account's own orders on the side that the first orders of their ids take to
another account or side. -/
def chargedAway (P : Primitives) (orders : List Order) (account : UInt32) (side : Side) : ℕ :=
  (((refs orders).filter fun r ↦ r.order.stands account side &&
    !(firstWithId orders r.order).stands account side).map fun r ↦ allotted P orders r.index).sum

/-- The units of other orders that the first orders of their ids take to the account and side. -/
def chargedOver (P : Primitives) (orders : List Order) (account : UInt32) (side : Side) : ℕ :=
  (((refs orders).filter fun r ↦ (firstWithId orders r.order).stands account side &&
    !r.order.stands account side).map fun r ↦ allotted P orders r.index).sum

/-- An account is charged what its orders were allotted exactly when what is charged elsewhere is
made up by what is charged over. -/
theorem settledTo_eq_allottedTo_iff (account : UInt32) (side : Side) :
    settledTo (settleEntries orders (clear P orders).fills) account side =
        allottedTo P orders account side ↔
      chargedAway P orders account side = chargedOver P orders account side := by
  have hsums := sum_filter_add_sum_filter (refs orders) (fun r ↦ allotted P orders r.index)
    (fun r ↦ r.order.stands account side) fun r ↦ (firstWithId orders r.order).stands account side
  rw [← settledTo_eq] at hsums
  change _ + chargedAway P orders account side =
    allottedTo P orders account side + chargedOver P orders account side at hsums
  omega

/-- Every order that is allotted units agrees in account and side with the first order of its id. -/
def FirstsAgree (P : Primitives) (orders : List Order) : Prop :=
  ∀ r ∈ refs orders, 0 < allotted P orders r.index →
    (firstWithId orders r.order).account = r.order.account ∧
      (firstWithId orders r.order).side = r.order.side

/-- When the orders that trade agree with the first of their ids, every fill is charged to the order
that was served. -/
theorem FirstsAgree.settledTo_eq (h : FirstsAgree P orders) (account : UInt32) (side : Side) :
    settledTo (settleEntries orders (clear P orders).fills) account side =
      allottedTo P orders account side := by
  have hzero : ∀ p : OrderRef → Bool,
      (∀ r ∈ refs orders, 0 < allotted P orders r.index → p r = false) →
        (((refs orders).filter p).map fun r ↦ allotted P orders r.index).sum = 0 := by
    intro p hp
    refine List.sum_eq_zero fun x hx ↦ ?_
    obtain ⟨r, hr, rfl⟩ := List.mem_map.mp hx
    obtain ⟨hmem, hpick⟩ := List.mem_filter.mp hr
    by_contra hne
    rw [hp r hmem (Nat.pos_of_ne_zero hne)] at hpick
    cases hpick
  have hsame : ∀ r ∈ refs orders, 0 < allotted P orders r.index →
      (firstWithId orders r.order).stands account side = r.order.stands account side := by
    intro r hr hpos
    obtain ⟨haccount, hside⟩ := h r hr hpos
    rw [Order.stands, Order.stands, haccount, hside]
  refine (settledTo_eq_allottedTo_iff account side).mpr ?_
  rw [chargedAway, chargedOver, hzero _ fun r hr hpos ↦ ?_, hzero _ fun r hr hpos ↦ ?_]
  · rw [hsame r hr hpos, Bool.and_not_self]
  · rw [hsame r hr hpos, Bool.and_not_self]

theorem firstsAgree_of_shared (h : SharedIdsAgree (orders.map Order.label)) :
    FirstsAgree P orders := by
  intro r hr _
  have hmem : r.order ∈ orders := List.mem_of_getElem? (mem_refs_iff.mp hr)
  have hfirst := find?_firstWithId hmem
  have hid : (firstWithId orders r.order).id = r.order.id := by
    simpa using List.find?_some hfirst
  have hlabel : (firstWithId orders r.order).label = r.order.label :=
    h _ (List.mem_map_of_mem (List.mem_of_find?_eq_some hfirst)) _ (List.mem_map_of_mem hmem) hid
  simp only [Order.label, Label.mk.injEq] at hlabel
  exact ⟨hlabel.1, hlabel.2.2⟩

/-! ### Batches that cannot trade, and batches that trade everything -/

theorem sum_qty_eq_zero {p : Order → Bool} (h : ∀ o ∈ orders, p o → o.qty = 0) :
    ((orders.filter p).map fun o ↦ o.qty.toUInt64).sum = 0 := by
  refine sum_u64_eq_zero fun x hx ↦ ?_
  obtain ⟨o, ho, rfl⟩ := List.mem_map.mp hx
  obtain ⟨hmem, hp⟩ := List.mem_filter.mp ho
  rw [h o hmem hp]
  rfl

theorem demand_of_no_buys (h : ∀ o ∈ orders, o.side = .buy → o.qty = 0) (p : UInt32) :
    demand orders p = 0 :=
  sum_qty_eq_zero fun o ho hbids ↦ h o ho (by simp_all [Order.bids])

theorem supply_of_no_sells (h : ∀ o ∈ orders, o.side = .sell → o.qty = 0) (p : UInt32) :
    supply orders p = 0 :=
  sum_qty_eq_zero fun o ho hasks ↦ h o ho (by simp_all [Order.asks])

/-- Nothing trades when one side offers nothing. -/
theorem allocation_of_empty_side {side : Side} (h : ∀ o ∈ orders, o.side = side → o.qty = 0) :
    allocation P orders = [] := by
  have hvolume : (bestPrice orders).volume = 0 := by
    rw [← UInt64.toNat_inj]
    obtain ⟨hdemand, hsupply⟩ := @bestPrice_volume_le orders
    cases side with
    | buy =>
      rw [demand_of_no_buys h] at hdemand
      exact Nat.le_zero.mp hdemand
    | sell =>
      rw [supply_of_no_sells h] at hsupply
      exact Nat.le_zero.mp hsupply
  simp [allocation, hvolume]

theorem allocation_of_oneSided (h : OneSided (orders.map Order.label)) :
    allocation P orders = [] := by
  obtain ⟨side, hside⟩ := h
  have hall : ∀ o ∈ orders, o.side = side := fun o ho ↦ hside o.label (List.mem_map_of_mem ho)
  obtain ⟨other, hother⟩ : ∃ other : Side, other ≠ side := by
    cases side with
    | buy => exact ⟨.sell, by simp⟩
    | sell => exact ⟨.buy, by simp⟩
  have hempty : ∀ o ∈ orders, o.side = other → o.qty = 0 := by
    intro o ho heq
    exact absurd (heq.symm.trans (hall o ho)) hother
  exact allocation_of_empty_side hempty

theorem filledUnder_of_allocation_nil (h : allocation P orders = []) (id : UInt32) :
    filledUnder (clear P orders).fills id = 0 := by
  rw [clear_fills, h]
  rfl

theorem allotted_of_allocation_nil (h : allocation P orders = []) (i : ℕ) :
    allotted P orders i = 0 := by
  rw [allotted, h]
  rfl

/-- The quantity offered on one side. -/
def sideQty (orders : List Order) (side : Side) : ℕ :=
  ((orders.filter fun o ↦ o.side == side).map fun o ↦ o.qty.toNat).sum

/-- All limits equal, and as much to buy as to sell. -/
structure Balanced (orders : List Order) (price : UInt32) : Prop where
  small : orders.length ≤ 2 ^ 32
  level : ∀ o ∈ orders, o.price = price
  even : sideQty orders .buy = sideQty orders .sell

namespace Balanced

variable {price : UInt32}

theorem toNat_demand (h : Balanced orders price) :
    (demand orders price).toNat = sideQty orders .buy := by
  rw [Engine.toNat_demand h.small, sideQty]
  congr 2
  refine List.filter_congr fun o ho ↦ ?_
  simp [Order.bids, h.level o ho]

theorem toNat_supply (h : Balanced orders price) :
    (supply orders price).toNat = sideQty orders .buy := by
  rw [Engine.toNat_supply h.small, h.even, sideQty]
  congr 2
  refine List.filter_congr fun o ho ↦ ?_
  simp [Order.asks, h.level o ho]

/-- The clearing trades all that is offered. -/
theorem bestPrice_eq (h : Balanced orders price) (hpos : 0 < sideQty orders .buy) :
    (bestPrice orders).volume.toNat = sideQty orders .buy ∧ (bestPrice orders).price = price := by
  have hsome : ∃ o ∈ orders, o.price = price := by
    by_contra hnone
    have hempty : orders = [] := List.eq_nil_iff_forall_not_mem.mpr fun o ho ↦
      hnone ⟨o, ho, h.level o ho⟩
    rw [hempty] at hpos
    exact absurd hpos (by simp [sideQty])
  have hmatched := le_bestPrice_volume (mem_candidatePrices.mpr hsome)
  rw [toNat_min_u64, h.toNat_demand, h.toNat_supply, Nat.min_self] at hmatched
  have hvolume : (bestPrice orders).volume ≠ 0 := by
    intro hzero
    rw [hzero] at hmatched
    exact absurd (hpos.trans_le hmatched) (by simp)
  have hprice : (bestPrice orders).price = price := by
    obtain ⟨o, ho, hlimit⟩ := mem_candidatePrices.mp (bestPrice_price_mem hvolume)
    rw [← hlimit]
    exact h.level o ho
  have hle := (@bestPrice_volume_le orders).1
  rw [hprice, h.toNat_demand] at hle
  exact ⟨le_antisymm hle hmatched, hprice⟩

/-- Every order of a balanced batch is filled in full. -/
theorem allotted_eq_units (P : Primitives) (h : Balanced orders price) (hr : r ∈ refs orders) :
    allotted P orders r.index = r.units := by
  set side := r.order.side with hside
  set peers := (refs orders).filter fun r' ↦ r'.order.side == side with hpeers
  have hpeer : r ∈ peers := List.mem_filter.mpr ⟨hr, by simp [hside]⟩
  have hunits : (peers.map OrderRef.units).sum = sideQty orders .buy := by
    rw [hpeers, sum_units_filter_refs orders fun o ↦ o.side == side]
    cases side with
    | buy => rfl
    | sell => exact h.even.symm
  have hle : ∀ r' ∈ peers, allotted P orders r'.index ≤ r'.units :=
    fun r' hr' ↦ allotted_le_units (List.mem_of_mem_filter hr')
  by_cases hpos : 0 < sideQty orders .buy
  · have hserved : (peers.map fun r' ↦ allotted P orders r'.index).sum = sideQty orders .buy := by
      rw [hpeers, sum_allotted_filter P orders fun r' ↦ r'.order.side == side]
      refine (sideVolume_eq P h.small side).trans ?_
      rw [clear_volume, (h.bestPrice_eq hpos).1]
    by_contra hne
    have hlt := List.sum_lt_sum _ _ hle ⟨r, hpeer, lt_of_le_of_ne (hle r hpeer) hne⟩
    rw [hserved, hunits] at hlt
    exact absurd hlt (lt_irrefl _)
  · have hzero : r.units ≤ 0 := by
      calc r.units ≤ (peers.map OrderRef.units).sum :=
            List.single_le_sum (fun _ _ ↦ Nat.zero_le _) _ (List.mem_map_of_mem hpeer)
        _ ≤ 0 := by rw [hunits]; exact Nat.le_of_not_lt hpos
    exact le_antisymm (hle r hpeer) (hzero.trans (Nat.zero_le _))

end Balanced

end Jamswap.Engine
