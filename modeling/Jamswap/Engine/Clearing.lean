import Jamswap.Engine.Primitives
import Jamswap.Library.Rationing
import Mathlib.Data.List.Destutter

/-!
# Clearing a batch at one uniform price

The call auction of the matching engine. `clear` picks, among the submitted limit prices, the one
that matches the largest volume (then the smallest imbalance, then the lowest price), and rations
that volume on each side by price-time priority; `resting` computes what is left of every order.

The engine reports fills by order id. What each order was given is `allocation`, which keeps the
reference of the order served: the fills are the allocation with the reference forgotten
(`clear_fills`), an order is served at most once (`nodup_allocation`), within its quantity and at a
price its limit admits (`allocation_spec`), and on each side the allocation adds up to the cleared
volume (`sideVolume_eq`).
-/

namespace Jamswap.Engine

open Library

/-- A (partial or full) fill for one order, at the uniform clearing price. -/
structure Fill where
  id : UInt32
  qty : UInt32
  deriving DecidableEq, Repr

/-- The result of clearing a batch. -/
structure Clearing where
  price : UInt32
  volume : UInt64
  fills : List Fill
  deriving DecidableEq, Repr

/-! ### The clearing price -/

/-- The distinct submitted limit prices, ascending. -/
def candidatePrices (orders : List Order) : List UInt32 :=
  ((orders.map Order.price).insertionSort (· ≤ ·)).destutter (· ≠ ·)

/-- Would this buy accept the price? -/
def Order.bids (o : Order) (p : UInt32) : Bool := o.side == .buy && decide (p ≤ o.price)

/-- Would this sell accept the price? -/
def Order.asks (o : Order) (p : UInt32) : Bool := o.side == .sell && decide (o.price ≤ p)

def demand (orders : List Order) (p : UInt32) : UInt64 :=
  ((orders.filter fun o ↦ o.bids p).map fun o ↦ o.qty.toUInt64).sum

def supply (orders : List Order) (p : UInt32) : UInt64 :=
  ((orders.filter fun o ↦ o.asks p).map fun o ↦ o.qty.toUInt64).sum

def absDiff (x y : UInt64) : UInt64 := if x < y then y - x else x - y

/-- The best candidate so far. -/
structure Best where
  price : UInt32
  volume : UInt64
  imbalance : UInt64
  deriving DecidableEq, Repr

/-- Keep the candidate that matches more volume, then the one with the smaller imbalance. The
candidates ascend, so the first one seen wins a remaining tie. -/
def Best.consider (orders : List Order) (best : Best) (p : UInt32) : Best :=
  let d := demand orders p
  let s := supply orders p
  let v := min d s
  let imbalance := absDiff d s
  if best.volume < v ∨ (v = best.volume ∧ 0 < v ∧ imbalance < best.imbalance) then
    ⟨p, v, imbalance⟩
  else best

def bestPrice (orders : List Order) : Best :=
  (candidatePrices orders).foldl (Best.consider orders) ⟨0, 0, UInt64.ofNat (2 ^ 64 - 1)⟩

/-! ### Priority and rationing -/

/-- Buys by priority: highest price, then lowest id. -/
def buyBefore (a b : OrderRef) : Bool :=
  decide (b.order.price < a.order.price) ||
    (a.order.price == b.order.price && decide (a.order.id ≤ b.order.id))

/-- Sells by priority: lowest price, then lowest id. -/
def sellBefore (a b : OrderRef) : Bool :=
  decide (a.order.price < b.order.price) ||
    (a.order.price == b.order.price && decide (a.order.id ≤ b.order.id))

def eligibleBuys (P : Primitives) (orders : List Order) (p : UInt32) : List OrderRef :=
  P.orderSort.sort buyBefore ((refs orders).filter fun r ↦ r.order.bids p)

def eligibleSells (P : Primitives) (orders : List Order) (p : UInt32) : List OrderRef :=
  P.orderSort.sort sellBefore ((refs orders).filter fun r ↦ r.order.asks p)

def ration : List OrderRef → UInt64 → List Fill
  | [], _ => []
  | r :: side, rem =>
    if rem = 0 then []
    else
      let f := min rem r.order.qty.toUInt64
      ⟨r.order.id, f.toUInt32⟩ :: ration side (rem - f)

/-- Clear a batch of orders; `volume = 0` with no fills when the book does not cross. -/
def clear (P : Primitives) (orders : List Order) : Clearing :=
  let best := bestPrice orders
  if best.volume = 0 then ⟨0, 0, []⟩
  else
    ⟨best.price, best.volume,
      ration (eligibleBuys P orders best.price) best.volume ++
        ration (eligibleSells P orders best.price) best.volume⟩

/-- The quantity reported as filled under an id. -/
def filledUnder (fills : List Fill) (id : UInt32) : UInt64 :=
  ((fills.filter fun f ↦ f.id == id).map fun f ↦ f.qty.toUInt64).sum

/-- What the fills carried under an order's id leave of its quantity. The subtraction is the
source's unchecked one on 64-bit words. -/
def Order.remainder (o : Order) (fills : List Fill) : UInt64 :=
  o.qty.toUInt64 - filledUnder fills o.id

/-- The orders, with reduced quantity, that remain after clearing. -/
def resting (orders : List Order) (c : Clearing) : List Order :=
  orders.filterMap fun o ↦
    if 0 < o.remainder c.fills then some { o with qty := (o.remainder c.fills).toUInt32 } else none

/-! ### What each order was given -/

/-- The quantity of an order, as a number. -/
def OrderRef.units (r : OrderRef) : ℕ := r.order.qty.toNat

/-- The units the rationing gives out, each with the order it goes to. -/
def allocation (P : Primitives) (orders : List Order) : List (OrderRef × ℕ) :=
  let best := bestPrice orders
  if best.volume = 0 then []
  else
    allot OrderRef.units (eligibleBuys P orders best.price) best.volume.toNat ++
      allot OrderRef.units (eligibleSells P orders best.price) best.volume.toNat

/-- The units given to the order at position `i` of the batch. -/
def allotted (P : Primitives) (orders : List Order) (i : ℕ) : ℕ :=
  (((allocation P orders).filter fun a ↦ a.1.index == i).map Prod.snd).sum

/-! ### References into a batch -/

variable {orders : List Order} {r : OrderRef} {P : Primitives} {p : UInt32}

theorem mem_refs_iff : r ∈ refs orders ↔ orders[r.index]? = some r.order := by
  unfold refs
  constructor
  · intro h
    obtain ⟨⟨o, i⟩, hmem, rfl⟩ := List.mem_map.mp h
    exact List.mem_zipIdx_iff_getElem?.mp hmem
  · intro h
    exact List.mem_map.mpr ⟨(r.order, r.index), List.mem_zipIdx_iff_getElem?.mpr h, rfl⟩

theorem map_order_refs (orders : List Order) : (refs orders).map OrderRef.order = orders := by
  rw [refs, List.map_map]
  exact List.zipIdx_map_fst 0 orders

theorem map_index_refs (orders : List Order) :
    (refs orders).map OrderRef.index = List.range orders.length := by
  rw [refs, List.map_map, List.range_eq_range']
  exact List.zipIdx_map_snd 0 orders

theorem nodup_refs (orders : List Order) : (refs orders).Nodup := by
  refine List.Nodup.of_map OrderRef.index ?_
  rw [map_index_refs]
  exact List.nodup_range

/-- A reference is determined by its position. -/
theorem eq_of_index_eq {r' : OrderRef} (h : r ∈ refs orders) (h' : r' ∈ refs orders)
    (hindex : r.index = r'.index) : r = r' := by
  rw [mem_refs_iff] at h h'
  rw [hindex, h'] at h
  obtain ⟨o, i⟩ := r
  obtain ⟨o', i'⟩ := r'
  cases hindex
  cases h
  rfl

/-! ### The allocation -/

theorem toNat_min_u64 (x y : UInt64) : (min x y).toNat = min x.toNat y.toNat := by
  change (if x ≤ y then x else y).toNat = _
  split_ifs with h <;> rw [UInt64.le_iff_toNat_le] at h <;> omega

/-- Rationing forgets which order each fill went to; apart from that it is the allotment. -/
theorem ration_eq_allot (side : List OrderRef) (rem : UInt64) :
    ration side rem = (allot OrderRef.units side rem.toNat).map fun a ↦
      ⟨a.1.order.id, UInt32.ofNat a.2⟩ := by
  induction side generalizing rem with
  | nil => rfl
  | cons r side ih =>
    have hzero : rem = 0 ↔ rem.toNat = 0 := by
      rw [← UInt64.toNat_inj]
      rfl
    rw [ration, allot]
    by_cases hrem : rem = 0
    · rw [if_pos hrem, if_pos (hzero.mp hrem)]
      rfl
    · rw [if_neg hrem, if_neg (mt hzero.mpr hrem)]
      have hmin : (min rem r.order.qty.toUInt64).toNat = min rem.toNat r.units := by
        rw [toNat_min_u64, UInt32.toNat_toUInt64]
        rfl
      have hle : min rem r.order.qty.toUInt64 ≤ rem := by
        rw [UInt64.le_iff_toNat_le, hmin]
        exact Nat.min_le_left _ _
      have hfill : (min rem r.order.qty.toUInt64).toUInt32 =
          UInt32.ofNat (min rem.toNat r.units) := by
        rw [← UInt32.toNat_inj, UInt64.toNat_toUInt32, UInt32.toNat_ofNat', hmin]
      simp only [List.map_cons, ih, UInt64.toNat_sub_of_le _ _ hle, hmin, hfill]

theorem clear_fills (P : Primitives) (orders : List Order) :
    (clear P orders).fills =
      (allocation P orders).map fun a ↦ ⟨a.1.order.id, UInt32.ofNat a.2⟩ := by
  unfold clear allocation
  by_cases hvolume : (bestPrice orders).volume = 0
  · simp only [if_pos hvolume, List.map_nil]
  · simp only [if_neg hvolume, ration_eq_allot, List.map_append]

theorem clear_price (P : Primitives) (orders : List Order) :
    (clear P orders).price =
      if (bestPrice orders).volume = 0 then 0 else (bestPrice orders).price := by
  simp only [clear]
  split_ifs <;> rfl

theorem clear_volume (P : Primitives) (orders : List Order) :
    (clear P orders).volume = (bestPrice orders).volume := by
  simp only [clear]
  split_ifs with h
  · exact h.symm
  · rfl

theorem perm_eligibleBuys (P : Primitives) (orders : List Order) (p : UInt32) :
    (eligibleBuys P orders p).Perm ((refs orders).filter fun r ↦ r.order.bids p) :=
  P.orderSort.perm _ _

theorem perm_eligibleSells (P : Primitives) (orders : List Order) (p : UInt32) :
    (eligibleSells P orders p).Perm ((refs orders).filter fun r ↦ r.order.asks p) :=
  P.orderSort.perm _ _

theorem mem_eligibleBuys :
    r ∈ eligibleBuys P orders p ↔ r ∈ refs orders ∧ r.order.side = .buy ∧ p ≤ r.order.price := by
  rw [(perm_eligibleBuys P orders p).mem_iff, List.mem_filter]
  simp [Order.bids]

theorem mem_eligibleSells :
    r ∈ eligibleSells P orders p ↔ r ∈ refs orders ∧ r.order.side = .sell ∧ r.order.price ≤ p := by
  rw [(perm_eligibleSells P orders p).mem_iff, List.mem_filter]
  simp [Order.asks]

/-- Whoever is served is in the batch, within its quantity, at a price its limit admits. -/
theorem allocation_spec {a : OrderRef × ℕ} (h : a ∈ allocation P orders) :
    a.1 ∈ refs orders ∧ a.2 ≤ a.1.units ∧
      (a.1.order.side = .buy ∧ (clear P orders).price ≤ a.1.order.price ∨
        a.1.order.side = .sell ∧ a.1.order.price ≤ (clear P orders).price) := by
  rw [clear_price]
  unfold allocation at h
  by_cases hvolume : (bestPrice orders).volume = 0
  · rw [if_pos hvolume] at h
    cases h
  · rw [if_neg hvolume] at h ⊢
    rcases List.mem_append.mp h with hbuy | hsell
    · obtain ⟨hmem, hside, hlimit⟩ := mem_eligibleBuys.mp (allot_fst_mem hbuy)
      exact ⟨hmem, allot_le_demand hbuy, Or.inl ⟨hside, hlimit⟩⟩
    · obtain ⟨hmem, hside, hlimit⟩ := mem_eligibleSells.mp (allot_fst_mem hsell)
      exact ⟨hmem, allot_le_demand hsell, Or.inr ⟨hside, hlimit⟩⟩

/-- No order is served twice. -/
theorem nodup_allocation (P : Primitives) (orders : List Order) :
    ((allocation P orders).map Prod.fst).Nodup := by
  unfold allocation
  by_cases hvolume : (bestPrice orders).volume = 0
  · simp [if_pos hvolume]
  · simp only [if_neg hvolume, List.map_append]
    have hbuys : (eligibleBuys P orders (bestPrice orders).price).Nodup :=
      (perm_eligibleBuys P orders _).nodup_iff.mpr ((nodup_refs orders).filter _)
    have hsells : (eligibleSells P orders (bestPrice orders).price).Nodup :=
      (perm_eligibleSells P orders _).nodup_iff.mpr ((nodup_refs orders).filter _)
    refine List.Nodup.append (hbuys.sublist (isPrefix_allot_fst _ _ _).sublist)
      (hsells.sublist (isPrefix_allot_fst _ _ _).sublist) ?_
    intro r hbuy hsell
    have hb := mem_eligibleBuys.mp ((isPrefix_allot_fst _ _ _).subset hbuy)
    have hs := mem_eligibleSells.mp ((isPrefix_allot_fst _ _ _).subset hsell)
    rw [hb.2.1] at hs
    cases hs.2.1

/-! ### The cleared volume -/

theorem toNat_sum_filter (hlen : orders.length ≤ 2 ^ 32) (p : Order → Bool) :
    ((orders.filter p).map fun o : Order ↦ o.qty.toUInt64).sum.toNat =
      ((orders.filter p).map fun o ↦ o.qty.toNat).sum := by
  have hle := List.length_filter_le p orders
  have hlt := sum_u32_lt Order.qty (orders.filter p) (hle.trans hlen)
  have hmap : ((orders.filter p).map fun o ↦ o.qty.toUInt64).map UInt64.toNat =
      (orders.filter p).map fun o ↦ o.qty.toNat := by
    simp [Function.comp_def]
  rw [toNat_sum_of_lt (by rw [hmap]; exact hlt), hmap]

theorem toNat_demand (hlen : orders.length ≤ 2 ^ 32) (p : UInt32) :
    (demand orders p).toNat = ((orders.filter fun o ↦ o.bids p).map fun o ↦ o.qty.toNat).sum :=
  toNat_sum_filter hlen _

theorem toNat_supply (hlen : orders.length ≤ 2 ^ 32) (p : UInt32) :
    (supply orders p).toNat = ((orders.filter fun o ↦ o.asks p).map fun o ↦ o.qty.toNat).sum :=
  toNat_sum_filter hlen _

/-- The volume recorded for a candidate is what demand and supply match at its price. -/
def Best.Matched (orders : List Order) (best : Best) : Prop :=
  best.volume = 0 ∨ best.volume = min (demand orders best.price) (supply orders best.price)

theorem Best.Matched.consider {best : Best} (h : best.Matched orders) (p : UInt32) :
    (best.consider orders p).Matched orders := by
  simp only [Best.consider]
  split_ifs
  · exact Or.inr rfl
  · exact h

theorem bestPrice_matched (orders : List Order) : (bestPrice orders).Matched orders :=
  List.foldlRecOn _ (Best.consider orders) (Or.inl rfl) fun _ h p _ ↦ h.consider p

theorem bestPrice_volume_le {orders : List Order} :
    (bestPrice orders).volume.toNat ≤ (demand orders (bestPrice orders).price).toNat ∧
      (bestPrice orders).volume.toNat ≤ (supply orders (bestPrice orders).price).toNat := by
  rcases bestPrice_matched orders with hzero | hmin
  · rw [hzero]
    exact ⟨Nat.zero_le _, Nat.zero_le _⟩
  · rw [hmin, toNat_min_u64]
    exact ⟨Nat.min_le_left _ _, Nat.min_le_right _ _⟩

/-- When nobody bids for anything, nothing trades. -/
theorem clear_of_no_demand (P : Primitives) (h : ∀ o ∈ orders, o.side = .buy → o.qty = 0) :
    (clear P orders).fills = [] := by
  have hdemand : ∀ p, demand orders p = 0 := by
    intro p
    unfold demand
    apply sum_u64_eq_zero
    intro x hx
    obtain ⟨o, ho, rfl⟩ := List.mem_map.mp hx
    obtain ⟨hmem, hbids⟩ := List.mem_filter.mp ho
    have hside : o.side = .buy := by
      simp only [Order.bids, Bool.and_eq_true, beq_iff_eq] at hbids
      exact hbids.1
    rw [h o hmem hside]
    rfl
  have hvolume : (bestPrice orders).volume = 0 := by
    have hle := (@bestPrice_volume_le orders).1
    rw [hdemand] at hle
    exact UInt64.toNat_inj.mp (Nat.le_zero.mp hle)
  simp only [clear, if_pos hvolume]

theorem mem_destutter'_ne {α : Type*} [DecidableEq α] {l : List α} {a b : α} :
    b ∈ l.destutter' (· ≠ ·) a ↔ b = a ∨ b ∈ l := by
  induction l generalizing a with
  | nil => simp
  | cons x l ih =>
    by_cases hx : a ≠ x
    · rw [List.destutter'_cons_pos _ hx, List.mem_cons, ih, List.mem_cons]
    · rw [List.destutter'_cons_neg _ hx, ih, List.mem_cons]
      rw [not_not] at hx
      subst hx
      tauto

theorem mem_candidatePrices : p ∈ candidatePrices orders ↔ ∃ o ∈ orders, o.price = p := by
  have hsorted : p ∈ (orders.map Order.price).insertionSort (· ≤ ·) ↔
      ∃ o ∈ orders, o.price = p := by
    rw [(List.perm_insertionSort _ _).mem_iff, List.mem_map]
  rw [← hsorted, candidatePrices]
  cases (orders.map Order.price).insertionSort (· ≤ ·) with
  | nil => simp
  | cons x l => rw [List.destutter_cons', mem_destutter'_ne, List.mem_cons]

theorem Best.le_consider (orders : List Order) (best : Best) (p : UInt32) :
    best.volume.toNat ≤ (best.consider orders p).volume.toNat ∧
      (min (demand orders p) (supply orders p)).toNat ≤ (best.consider orders p).volume.toNat := by
  simp only [Best.consider]
  split_ifs with hbetter
  · refine ⟨?_, le_rfl⟩
    rcases hbetter with hlt | ⟨heq, -⟩
    · exact (UInt64.lt_iff_toNat_lt.mp hlt).le
    · rw [heq]
  · refine ⟨le_rfl, ?_⟩
    exact UInt64.le_iff_toNat_le.mp (UInt64.not_lt.mp fun hlt ↦ hbetter (Or.inl hlt))

/-- No submitted price matches more than the cleared volume. -/
theorem le_bestPrice_volume (hp : p ∈ candidatePrices orders) :
    (min (demand orders p) (supply orders p)).toNat ≤ (bestPrice orders).volume.toNat := by
  have hrun : ∀ (prices : List UInt32) (best : Best),
      best.volume.toNat ≤ (prices.foldl (Best.consider orders) best).volume.toNat ∧
        (p ∈ prices → (min (demand orders p) (supply orders p)).toNat ≤
          (prices.foldl (Best.consider orders) best).volume.toNat) := by
    intro prices
    induction prices with
    | nil => exact fun best ↦ ⟨le_rfl, fun h ↦ absurd h (by simp)⟩
    | cons q prices ih =>
      intro best
      obtain ⟨hkeep, hlater⟩ := ih (best.consider orders q)
      obtain ⟨hmono, hmatch⟩ := best.le_consider orders q
      refine ⟨hmono.trans hkeep, fun hmem ↦ ?_⟩
      rcases List.mem_cons.mp hmem with rfl | hrest
      · exact hmatch.trans hkeep
      · exact hlater hrest
  exact (hrun _ _).2 hp

/-- A batch that trades clears at a submitted price. -/
theorem bestPrice_price_mem (h : (bestPrice orders).volume ≠ 0) :
    (bestPrice orders).price ∈ candidatePrices orders := by
  refine List.foldlRecOn (motive := fun best : Best ↦ best.volume ≠ 0 →
    best.price ∈ candidatePrices orders) _ _ (fun h ↦ absurd rfl h) (fun best hbest p hp ↦ ?_) h
  simp only [Best.consider]
  split_ifs
  · exact fun _ ↦ hp
  · exact hbest

theorem sum_units_filter_refs (orders : List Order) (p : Order → Bool) :
    (((refs orders).filter fun r ↦ p r.order).map OrderRef.units).sum =
      ((orders.filter p).map fun o ↦ o.qty.toNat).sum := by
  have hmap : ((refs orders).filter fun r ↦ p r.order).map OrderRef.order = orders.filter p := by
    conv_rhs => rw [← map_order_refs orders, List.filter_map]
    rfl
  rw [← hmap, List.map_map]
  rfl

/-- The units served on one side of the batch. -/
def sideVolume (P : Primitives) (orders : List Order) (side : Side) : ℕ :=
  (((allocation P orders).filter fun a ↦ a.1.order.side == side).map Prod.snd).sum

private theorem filter_side_of_forall {side : Side} {xs : List (OrderRef × ℕ)}
    (h : ∀ a ∈ xs, a.1.order.side = side) :
    (xs.filter fun a ↦ a.1.order.side == side) = xs :=
  List.filter_eq_self.mpr fun a ha ↦ by simpa using h a ha

private theorem filter_side_of_forall_ne {side : Side} {xs : List (OrderRef × ℕ)}
    (h : ∀ a ∈ xs, a.1.order.side ≠ side) :
    (xs.filter fun a ↦ a.1.order.side == side) = [] :=
  List.filter_eq_nil_iff.mpr fun a ha ↦ by simpa using h a ha

/-- Each side of a batch of at most `2 ^ 32` orders trades exactly the cleared volume. -/
theorem sideVolume_eq (P : Primitives) (hlen : orders.length ≤ 2 ^ 32) (side : Side) :
    sideVolume P orders side = (clear P orders).volume.toNat := by
  rw [clear_volume]
  unfold sideVolume allocation
  by_cases hvolume : (bestPrice orders).volume = 0
  · simp [hvolume]
  simp only [if_neg hvolume, List.filter_append]
  set p := (bestPrice orders).price
  set v := (bestPrice orders).volume.toNat
  have hbuy : ∀ a ∈ allot OrderRef.units (eligibleBuys P orders p) v, a.1.order.side = .buy :=
    fun a ha ↦ (mem_eligibleBuys.mp (allot_fst_mem ha)).2.1
  have hsell : ∀ a ∈ allot OrderRef.units (eligibleSells P orders p) v, a.1.order.side = .sell :=
    fun a ha ↦ (mem_eligibleSells.mp (allot_fst_mem ha)).2.1
  have hbound := @bestPrice_volume_le orders
  cases side with
  | buy =>
    rw [filter_side_of_forall hbuy, filter_side_of_forall_ne fun a ha ↦ by rw [hsell a ha]; simp,
      List.append_nil, sum_allot, ((perm_eligibleBuys P orders p).map OrderRef.units).sum_eq,
      sum_units_filter_refs orders fun o ↦ o.bids p, ← toNat_demand hlen]
    exact Nat.min_eq_left hbound.1
  | sell =>
    rw [filter_side_of_forall hsell, filter_side_of_forall_ne fun a ha ↦ by rw [hbuy a ha]; simp,
      List.nil_append, sum_allot, ((perm_eligibleSells P orders p).map OrderRef.units).sum_eq,
      sum_units_filter_refs orders fun o ↦ o.asks p, ← toNat_supply hlen]
    exact Nat.min_eq_left hbound.2

end Jamswap.Engine
