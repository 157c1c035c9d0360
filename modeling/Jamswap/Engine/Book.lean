import Jamswap.Engine.Auction

/-!
# Fair fills and the resting book

A batch whose orders carry distinct ids. Its fills are then the orders' own, so they ration the book
(`rations_filled`), which makes them a fair matching (`clear_fair`). What rests is every order with
its fill taken off, in the order of the batch, and it no longer crosses
(`matched_resting`). `Session` runs one round after the other, each clearing what rested before
together with new orders; no unit of an order is lost or made up on the way
(`Session.run_accounts`).
-/

namespace Jamswap.Engine

open Library

variable (P : Primitives) {orders : List Order} (hids : (orders.map Order.id).Nodup)

/-! ### Distinct ids -/

include hids in
/-- There are only `2 ^ 32` ids. -/
theorem length_le_of_nodup_ids : orders.length ≤ 2 ^ 32 := by
  have hnodup : ((orders.map Order.id).map UInt32.toNat).Nodup :=
    hids.map fun _ _ ↦ UInt32.toNat_inj.mp
  have hsub : (orders.map Order.id).map UInt32.toNat ⊆ List.range (2 ^ 32) := by
    intro n hn
    obtain ⟨id, -, rfl⟩ := List.mem_map.mp hn
    exact List.mem_range.mpr id.toNat_lt
  simpa using (hnodup.subperm hsub).length_le

include hids in
theorem eq_of_id_eq {r r' : OrderRef} (hr : r ∈ refs orders) (hr' : r' ∈ refs orders)
    (hid : r'.order.id = r.order.id) : r' = r := by
  rw [← map_order_refs orders, List.map_map] at hids
  exact List.inj_on_of_nodup_map hids hr' hr hid

include hids in
/-- The fills ration the book. -/
theorem rations_filled :
    Rations Order.offer orders (bestPrice orders).price.toNat (bestPrice orders).volume.toNat
      fun o ↦ (filledUnder (clear P orders).fills o.id).toNat := by
  have hmap : Rations Order.offer ((refs orders).map OrderRef.order)
      (bestPrice orders).price.toNat (bestPrice orders).volume.toNat
      fun o ↦ (filledUnder (clear P orders).fills o.id).toNat := by
    refine (rations_allotted P orders).map (fun _ ↦ rfl) fun r hr ↦ ?_
    exact toNat_filledUnder_of_unique (length_le_of_nodup_ids hids) hr fun r' hr' hid ↦
      eq_of_id_eq hids hr hr' hid
  rwa [map_order_refs] at hmap

/-! ### Fair matching -/

/-- On its side of the book, an order goes behind another: its limit is worse, or it has the same
limit and the larger id. -/
def Order.Behind (o' o : Order) : Prop :=
  (match o.side with
    | .buy => o'.price < o.price
    | .sell => o.price < o'.price) ∨ o'.price = o.price ∧ o.id < o'.id

/-- Both sides trade the volume, within quantities and limits, and nobody is served behind an
eligible order that is not completely filled. -/
structure FairMatching (orders : List Order) (c : Clearing) : Prop where
  known : ∀ f ∈ c.fills, ∃ o ∈ orders, o.id = f.id
  balanced : ∀ side : Side, ((c.fills.filter fun f ↦ ∃ o ∈ orders, o.id = f.id ∧ o.side = side).map
    fun f ↦ f.qty.toNat).sum = c.volume.toNat
  within : ∀ o ∈ orders, (filledUnder c.fills o.id).toNat ≤ o.qty.toNat
  buyLimit : ∀ o ∈ orders, o.side = .buy → 0 < filledUnder c.fills o.id → c.price ≤ o.price
  sellLimit : ∀ o ∈ orders, o.side = .sell → 0 < filledUnder c.fills o.id → o.price ≤ c.price
  priority : ∀ o ∈ orders, (o.bids c.price ∨ o.asks c.price) →
    (filledUnder c.fills o.id).toNat ≠ o.qty.toNat →
    ∀ o' ∈ orders, o'.side = o.side → o'.Behind o → filledUnder c.fills o'.id = 0

include hids in
theorem sum_side_fills (side : Side) :
    (((clear P orders).fills.filter fun f ↦ ∃ o ∈ orders, o.id = f.id ∧ o.side = side).map
      fun f ↦ f.qty.toNat).sum = (clear P orders).volume.toNat := by
  rw [← sideVolume_eq P (length_le_of_nodup_ids hids) side, sideVolume, clear_fills,
    List.filter_map, List.map_map]
  have hfilter : ((allocation P orders).filter ((fun f : Fill ↦ decide (∃ o ∈ orders,
      o.id = f.id ∧ o.side = side)) ∘ fun a ↦ ⟨a.1.order.id, UInt32.ofNat a.2⟩)) =
        (allocation P orders).filter fun a ↦ a.1.order.side == side := by
    refine List.filter_congr fun a ha ↦ ?_
    have hmem : a.1.order ∈ orders := List.mem_of_getElem? (mem_refs_iff.mp (allocation_spec ha).1)
    rw [Function.comp_apply, Bool.eq_iff_iff, decide_eq_true_eq, beq_iff_eq]
    constructor
    · rintro ⟨o, ho, hid, hside⟩
      rwa [← List.inj_on_of_nodup_map hids ho hmem hid]
    · exact fun hside ↦ ⟨a.1.order, hmem, rfl, hside⟩
  rw [hfilter]
  refine congrArg List.sum (List.map_congr_left fun a ha ↦ ?_)
  exact toNat_fill_qty (List.mem_of_mem_filter ha)

variable {o : Order}

theorem not_precedes_of_behind {o' : Order} (h : o'.Behind o) :
    ¬ Precedes o.offer.buys o'.offer.rank o.offer.rank := by
  rw [Order.Behind, UInt32.lt_iff_toNat_lt, ← UInt32.toNat_inj] at h
  cases hbuy : o.side with
  | buy =>
    simp only [hbuy, UInt32.lt_iff_toNat_lt] at h
    simp only [Order.offer, hbuy, beq_self_eq_true, Precedes, Keen]
    omega
  | sell =>
    simp only [hbuy, UInt32.lt_iff_toNat_lt] at h
    have hsells : (Side.sell == Side.buy) = false := rfl
    simp only [Order.offer, hbuy, hsells, Precedes, Keen]
    omega

/-- The fills of a batch with distinct ids are a fair matching. -/
theorem clear_fair (P : Primitives) (orders : List Order) (hids : (orders.map Order.id).Nodup) :
    FairMatching orders (clear P orders) := by
  have hrations := rations_filled P hids
  have hbook : ∀ o, filledUnder (clear P orders).fills o ≠ 0 →
      (clear P orders).price = (bestPrice orders).price := by
    intro id hne
    rw [clear_price, if_neg]
    intro hzero
    refine hne (filledUnder_of_allocation_nil ?_ id)
    simp [allocation, hzero]
  have hlimit : ∀ o ∈ orders, 0 < filledUnder (clear P orders).fills o.id →
      Keen o.offer.buys o.offer.limit (clear P orders).price.toNat := by
    intro o ho hpos
    have hne := UInt64.pos_iff_ne_zero.mp hpos
    by_contra hkeen
    rw [hbook o.id hne] at hkeen
    exact hne (UInt64.toNat_inj.mp (hrations.eq_zero_of_not_keen ho hkeen))
  refine ⟨fun f hf ↦ ?_, sum_side_fills P hids, hrations.within, fun o ho hside hpos ↦ ?_,
    fun o ho hside hpos ↦ ?_, fun o ho heligible hpart o' ho' hside hbehind ↦ ?_⟩
  · rw [clear_fills] at hf
    obtain ⟨a, ha, rfl⟩ := List.mem_map.mp hf
    exact ⟨a.1.order, List.mem_of_getElem? (mem_refs_iff.mp (allocation_spec ha).1), rfl⟩
  · have hkeen := hlimit o ho hpos
    simp only [Order.offer, hside, beq_self_eq_true, Keen] at hkeen
    exact UInt32.le_iff_toNat_le.mpr hkeen
  · have hkeen := hlimit o ho hpos
    have hsells : (Side.sell == Side.buy) = false := rfl
    simp only [Order.offer, hside, hsells, Keen] at hkeen
    exact UInt32.le_iff_toNat_le.mpr hkeen
  · by_contra hne
    have hkeen : Keen o.offer.buys o.offer.limit (bestPrice orders).price.toNat := by
      rw [← hbook o'.id hne]
      rw [bids_eq, asks_eq, decide_eq_true_eq, decide_eq_true_eq] at heligible
      rcases heligible with ⟨hbuys, hkeen⟩ | ⟨hbuys, hkeen⟩
      · rwa [hbuys]
      · rwa [hbuys]
    refine hne (UInt64.toNat_inj.mp (hrations.eq_zero_after ho ho' ?_ hkeen
      (lt_of_le_of_ne (hrations.within o ho) hpart) (not_precedes_of_behind hbehind)))
    rw [Order.offer, Order.offer, hside]

/-- Two buys at one limit, and a sell that fills the first of them and part of the second. -/
def shortSupply : List Order :=
  [⟨1, 11, .buy, 5, 4⟩, ⟨2, 12, .buy, 5, 4⟩, ⟨3, 13, .sell, 4, 6⟩]

theorem clear_fair_shortSupply :
    (shortSupply.map Order.id).Nodup ∧
      FairMatching shortSupply (clear Primitives.toy shortSupply) ∧
      (clear Primitives.toy shortSupply).fills = [⟨11, 4⟩, ⟨12, 2⟩, ⟨13, 6⟩] :=
  ⟨by decide, clear_fair Primitives.toy shortSupply (by decide), by decide +kernel⟩

/-! ### What rests -/

/-- The order with another quantity. -/
def Order.withQty (o : Order) (n : ℕ) : Order := { o with qty := UInt32.ofNat n }

theorem toNat_qty_withQty {n : ℕ} (h : n ≤ o.qty.toNat) : (o.withQty n).qty.toNat = n := by
  rw [Order.withQty, UInt32.toNat_ofNat', Nat.mod_eq_of_lt (h.trans_lt o.qty.toNat_lt)]

include hids in
/-- Every order rests with its fill taken off, and is gone when nothing is left. -/
theorem resting_eq :
    resting orders (clear P orders) = (orders.map fun o ↦ o.withQty
      (o.qty.toNat - (filledUnder (clear P orders).fills o.id).toNat)).filter
        fun o ↦ 0 < o.qty := by
  rw [resting, List.filter_map, ← List.filterMap_eq_map, ← List.filterMap_eq_filter,
    List.filterMap_filterMap]
  refine List.filterMap_congr fun o ho ↦ ?_
  have hle := (rations_filled P hids).within o ho
  have hrem : (o.remainder (clear P orders).fills).toNat =
      o.qty.toNat - (filledUnder (clear P orders).fills o.id).toNat := by
    rw [Order.remainder, UInt64.toNat_sub_of_le, UInt32.toNat_toUInt64]
    rw [UInt64.le_iff_toNat_le, UInt32.toNat_toUInt64]
    exact hle
  have hqty : (o.remainder (clear P orders).fills).toUInt32 = (o.withQty (o.qty.toNat -
      (filledUnder (clear P orders).fills o.id).toNat)).qty := by
    rw [← UInt32.toNat_inj, UInt64.toNat_toUInt32, hrem, toNat_qty_withQty (Nat.sub_le _ _),
      Nat.mod_eq_of_lt ((Nat.sub_le _ _).trans_lt o.qty.toNat_lt)]
  have hpos : 0 < o.remainder (clear P orders).fills ↔
      0 < (o.remainder (clear P orders).fills).toUInt32 := by
    rw [UInt64.lt_iff_toNat_lt, UInt32.lt_iff_toNat_lt, hqty, toNat_qty_withQty (Nat.sub_le _ _),
      hrem]
    rfl
  simp only [hpos, hqty, Option.guard, Function.comp_apply, decide_eq_true_eq]
  split_ifs
  · rfl
  · rfl

theorem offer_withQty {n : ℕ} (h : n ≤ o.qty.toNat) :
    (o.withQty n).offer = { o.offer with qty := n } := by
  rw [Order.offer, toNat_qty_withQty h]
  rfl

include hids in
/-- What rests does not cross at any price. -/
theorem matched_resting (q : ℕ) :
    matched (book Order.offer (resting orders (clear P orders))) q = 0 := by
  set given : Order → ℕ := fun o ↦ (filledUnder (clear P orders).fills o.id).toNat
  have hbook : book Order.offer (resting orders (clear P orders)) =
      (book (Rations.rest Order.offer given) orders).filter fun o ↦ 0 < o.qty := by
    rw [resting_eq P hids, book, book, Multiset.filter_coe]
    congr 1
    rw [List.filter_map, List.map_map, List.filter_map]
    have hoffer : ∀ o : Order, (o.withQty (o.qty.toNat - given o)).offer =
        Rations.rest Order.offer given o := fun o ↦ offer_withQty (Nat.sub_le _ _)
    have hpos : ∀ o : Order, decide (0 < o.qty) = decide (0 < o.offer.qty) := by
      intro o
      rw [decide_eq_decide, UInt32.lt_iff_toNat_lt]
      rfl
    simp only [Function.comp_def, hpos]
    simp only [given, hoffer]
  obtain ⟨hvolume, hmost⟩ := bestPrice_volume_eq (length_le_of_nodup_ids hids)
  rw [hbook, matched_filter_pos, (rations_filled P hids).matched_rest hvolume hmost]

theorem ids_resting_sublist (c : Clearing) :
    ((resting orders c).map Order.id).Sublist (orders.map Order.id) :=
  map_resting_sublist (fun _ _ ↦ rfl) orders c

include hids in
theorem clear_resting_volume : (clear P (resting orders (clear P orders))).volume = 0 := by
  have hrest := hids.sublist (ids_resting_sublist (clear P orders))
  obtain ⟨hvolume, -⟩ := bestPrice_volume_eq (length_le_of_nodup_ids hrest)
  rw [clear_volume, ← UInt64.toNat_inj, hvolume, matched_resting P hids]
  rfl

/-! ### Round after round -/

/-- The quantity that stands under an id. -/
def restUnder (orders : List Order) (id : UInt32) : ℕ :=
  ((orders.filter fun o ↦ o.id == id).map fun o ↦ o.qty.toNat).sum

theorem restUnder_append (xs ys : List Order) (id : UInt32) :
    restUnder (xs ++ ys) id = restUnder xs id + restUnder ys id := by
  rw [restUnder, List.filter_append, List.map_append, List.sum_append]
  rfl

include hids in
/-- Distinct ids: an id picks out its order. -/
theorem filter_id_of_mem (ho : o ∈ orders) : (orders.filter fun o' ↦ o'.id == o.id) = [o] := by
  refine List.perm_singleton.mp ((List.perm_ext_iff_of_nodup (hids.of_map.filter _)
    (List.nodup_singleton o)).mpr fun o' ↦ ?_)
  rw [List.mem_filter, beq_iff_eq, List.mem_singleton]
  constructor
  · rintro ⟨ho', hid⟩
    exact List.inj_on_of_nodup_map hids ho' ho hid
  · rintro rfl
    exact ⟨ho, rfl⟩

include hids in
theorem restUnder_of_mem (ho : o ∈ orders) : restUnder orders o.id = o.qty.toNat := by
  rw [restUnder, filter_id_of_mem hids ho, List.map_singleton, List.sum_singleton]

theorem restUnder_of_notMem {id : UInt32} (hid : id ∉ orders.map Order.id) :
    restUnder orders id = 0 := by
  rw [restUnder, List.filter_eq_nil_iff.mpr fun o ho heq ↦ ?_]
  · rfl
  · exact hid (beq_iff_eq.mp heq ▸ List.mem_map_of_mem ho)

include hids in
/-- A round takes from what stands under an id exactly what it reports as filled. -/
theorem filledUnder_add_restUnder (id : UInt32) :
    (filledUnder (clear P orders).fills id).toNat + restUnder (resting orders (clear P orders)) id =
      restUnder orders id := by
  by_cases hid : id ∈ orders.map Order.id
  · obtain ⟨o, ho, rfl⟩ := List.mem_map.mp hid
    have hle := (rations_filled P hids).within o ho
    set left := o.withQty (o.qty.toNat - (filledUnder (clear P orders).fills o.id).toNat) with hleft
    have hqty := toNat_qty_withQty (o := o)
      (Nat.sub_le o.qty.toNat (filledUnder (clear P orders).fills o.id).toNat)
    have hrest : restUnder (resting orders (clear P orders)) o.id = left.qty.toNat := by
      have hids' := hids.sublist (ids_resting_sublist (clear P orders))
      rw [resting_eq P hids] at hids' ⊢
      by_cases hpos : 0 < left.qty
      · exact restUnder_of_mem hids'
          (List.mem_filter.mpr ⟨List.mem_map_of_mem ho, decide_eq_true hpos⟩)
      · rw [restUnder_of_notMem, UInt32.le_zero_iff.mp (UInt32.not_lt.mp hpos)]
        · rfl
        · intro hmem
          obtain ⟨x, hx, hid⟩ := List.mem_map.mp hmem
          obtain ⟨hx, hxpos⟩ := List.mem_filter.mp hx
          obtain ⟨o', ho', rfl⟩ := List.mem_map.mp hx
          obtain rfl := List.inj_on_of_nodup_map hids ho' ho hid
          exact hpos (of_decide_eq_true hxpos)
    rw [restUnder_of_mem hids ho, hrest, hqty]
    exact Nat.add_sub_cancel' hle
  · have hrest : id ∉ (resting orders (clear P orders)).map Order.id := fun hmem ↦
      hid ((ids_resting_sublist (clear P orders)).subset hmem)
    have hnone : ((refs orders).filter fun r ↦ r.order.id == id) = [] := by
      refine List.filter_eq_nil_iff.mpr fun r hr heq ↦ hid ?_
      rw [← beq_iff_eq.mp heq]
      exact List.mem_map_of_mem (List.mem_of_getElem? (mem_refs_iff.mp hr))
    rw [restUnder_of_notMem hid, restUnder_of_notMem hrest,
      toNat_filledUnder (length_le_of_nodup_ids hids), hnone]
    rfl

/-- What a succession of rounds leaves: the units filled so far under each id, and the book. -/
structure Session where
  filled : UInt32 → ℕ
  book : List Order

namespace Session

def start : Session := ⟨fun _ ↦ 0, []⟩

/-- A round clears the book with new orders added to it, and rests what is left. -/
def round (P : Primitives) (s : Session) (fresh : List Order) : Session :=
  let orders := s.book ++ fresh
  let c := clear P orders
  ⟨fun id ↦ s.filled id + (filledUnder c.fills id).toNat, resting orders c⟩

def run (P : Primitives) (rounds : List (List Order)) : Session := rounds.foldl (round P) start

/-- The session accounts for the orders placed so far. -/
structure Accounts (placed : List Order) (s : Session) : Prop where
  ids : (s.book.map Order.id).Sublist (placed.map Order.id)
  units : ∀ id, s.filled id + restUnder s.book id = restUnder placed id

theorem Accounts.round {P : Primitives} {placed fresh : List Order} {s : Session}
    (h : s.Accounts placed) (hids : ((placed ++ fresh).map Order.id).Nodup) :
    (s.round P fresh).Accounts (placed ++ fresh) := by
  have hsub : ((s.book ++ fresh).map Order.id).Sublist ((placed ++ fresh).map Order.id) := by
    rw [List.map_append, List.map_append]
    exact h.ids.append (List.Sublist.refl _)
  have hbatch := hids.sublist hsub
  refine ⟨(ids_resting_sublist _).trans hsub, fun id ↦ ?_⟩
  have hround := filledUnder_add_restUnder P hbatch id
  have hbefore := h.units id
  rw [restUnder_append] at hround
  rw [restUnder_append]
  simp only [Session.round]
  omega

theorem run_accounts (P : Primitives) (rounds : List (List Order))
    (hids : (rounds.flatten.map Order.id).Nodup) : (run P rounds).Accounts rounds.flatten := by
  induction rounds using List.reverseRecOn with
  | nil => exact ⟨List.Sublist.refl _, fun _ ↦ rfl⟩
  | append_singleton rounds fresh ih =>
    rw [List.flatten_append, List.flatten_singleton] at hids ⊢
    rw [run, List.foldl_append]
    have hearlier : (rounds.flatten.map Order.id).Nodup := by
      rw [List.map_append] at hids
      exact (List.nodup_append.mp hids).1
    exact (ih hearlier).round hids

end Session

/-- What rests is every order less its fill, in the order of the batch and without the ones that are
filled; it no longer trades; and over any succession of rounds that add orders under ids of their
own, an order's fills so far and what still rests of it make up its quantity. -/
theorem resting_uncrossed_and_conserved (P : Primitives) :
    (∀ orders : List Order, (orders.map Order.id).Nodup →
      (∀ o ∈ orders, (filledUnder (clear P orders).fills o.id).toNat ≤ o.qty.toNat) ∧
      resting orders (clear P orders) = (orders.map fun o ↦ o.withQty
        (o.qty.toNat - (filledUnder (clear P orders).fills o.id).toNat)).filter (0 < ·.qty) ∧
      (clear P (resting orders (clear P orders))).volume = 0) ∧
    ∀ rounds : List (List Order), (rounds.flatten.map Order.id).Nodup →
      ∀ o ∈ rounds.flatten,
        (Session.run P rounds).filled o.id + restUnder (Session.run P rounds).book o.id =
          o.qty.toNat := by
  refine ⟨fun orders hids ↦ ⟨(rations_filled P hids).within, resting_eq P hids,
    clear_resting_volume P hids⟩, fun rounds hids o ho ↦ ?_⟩
  rw [(Session.run_accounts P rounds hids).units, restUnder_of_mem hids ho]

/-- A second round fills the rest of the buy that the first one left. -/
def laterSupply : List Order := [⟨4, 14, .sell, 5, 1⟩]

theorem resting_uncrossed_and_conserved_shortSupply :
    resting shortSupply (clear Primitives.toy shortSupply) = [⟨2, 12, .buy, 5, 2⟩] ∧
      (clear Primitives.toy [⟨2, 12, .buy, 5, 2⟩]).volume = 0 ∧
      (Session.run Primitives.toy [shortSupply, laterSupply]).filled 12 = 3 ∧
      (Session.run Primitives.toy [shortSupply, laterSupply]).filled 12 +
        restUnder (Session.run Primitives.toy [shortSupply, laterSupply]).book 12 = 4 := by
  have hrest : resting shortSupply (clear Primitives.toy shortSupply) = [⟨2, 12, .buy, 5, 2⟩] := by
    decide +kernel
  obtain ⟨hone, hrounds⟩ := resting_uncrossed_and_conserved Primitives.toy
  have hvolume := (hone shortSupply (by decide)).2.2
  rw [hrest] at hvolume
  exact ⟨hrest, hvolume, by decide +kernel,
    hrounds [shortSupply, laterSupply] (by decide) ⟨2, 12, .buy, 5, 4⟩ (by decide)⟩

end Jamswap.Engine
