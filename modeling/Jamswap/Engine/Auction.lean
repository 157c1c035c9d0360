import Jamswap.Engine.Attribution
import Jamswap.Library.Auction

/-!
# The clearing is a uniform-price auction

An order is an offer (`Order.offer`), so a batch is a book. On a batch of at most `2 ^ 32` orders no
sum wraps, and the engine's scan of the submitted prices is the auction's
(`bestPrice_auction`); its two sorted sides are the auction's queues (`queue_eligible`), so what it
allots rations the book (`rations_allotted`). A clearing is therefore the outcome of the auction
(`clear_auction`), which depends on the orders of the batch but not on their order.

`clear_price_optimal` is the choice of price in the engine's own terms.
-/

namespace Jamswap.Engine

open Library

/-- An order as an offer to the auction. -/
def Order.offer (o : Order) : Offer ℕ ℕ :=
  ⟨o.side == .buy, o.price.toNat, o.id.toNat, o.qty.toNat⟩

/-- The buy quantity with limits at least `p`. -/
def demandAt (orders : List Order) (p : UInt32) : ℕ :=
  ((orders.filter fun o ↦ o.bids p).map fun o ↦ o.qty.toNat).sum

/-- The sell quantity with limits at most `p`. -/
def supplyAt (orders : List Order) (p : UInt32) : ℕ :=
  ((orders.filter fun o ↦ o.asks p).map fun o ↦ o.qty.toNat).sum

variable {P : Primitives} {orders : List Order}

/-! ### Depth -/

theorem bids_eq (o : Order) (p : UInt32) :
    o.bids p = decide (o.offer.buys = true ∧ Keen true o.offer.limit p.toNat) := by
  rw [Bool.eq_iff_iff]
  simp [Order.bids, Order.offer, Keen, UInt32.le_iff_toNat_le]

theorem asks_eq (o : Order) (p : UInt32) :
    o.asks p = decide (o.offer.buys = false ∧ Keen false o.offer.limit p.toNat) := by
  rw [Bool.eq_iff_iff]
  cases hside : o.side with
  | buy => simp [Order.asks, Order.offer, hside]
  | sell => simp [Order.asks, Order.offer, Keen, hside, UInt32.le_iff_toNat_le]

theorem demandAt_eq (orders : List Order) (p : UInt32) :
    demandAt orders p = depth (book Order.offer orders) true p.toNat := by
  rw [depth, weight_filter_book, demandAt]
  simp only [bids_eq]
  rfl

theorem supplyAt_eq (orders : List Order) (p : UInt32) :
    supplyAt orders p = depth (book Order.offer orders) false p.toNat := by
  rw [depth, weight_filter_book, supplyAt]
  simp only [asks_eq]
  rfl

theorem min_demandAt_supplyAt (orders : List Order) (p : UInt32) :
    min (demandAt orders p) (supplyAt orders p) = matched (book Order.offer orders) p.toNat := by
  rw [demandAt_eq, supplyAt_eq, matched]

theorem dist_demandAt_supplyAt (orders : List Order) (p : UInt32) :
    Nat.dist (demandAt orders p) (supplyAt orders p) =
      imbalance (book Order.offer orders) p.toNat := by
  rw [demandAt_eq, supplyAt_eq, imbalance]

theorem toNat_absDiff (x y : UInt64) : (absDiff x y).toNat = Nat.dist x.toNat y.toNat := by
  rw [absDiff, Nat.dist]
  split_ifs with hlt
  · rw [UInt64.toNat_sub_of_le _ _ (UInt64.le_of_lt hlt)]
    rw [UInt64.lt_iff_toNat_lt] at hlt
    omega
  · rw [UInt64.toNat_sub_of_le _ _ (UInt64.not_lt.mp hlt)]
    rw [UInt64.lt_iff_toNat_lt] at hlt
    omega

/-! ### The clearing price -/

/-- The best candidate so far is the scan's. -/
def Best.Tracks (orders : List Order) (best : Best) : Option ℕ → Prop
  | none => best.volume = 0
  | some q => best.price.toNat = q ∧ 0 < matched (book Order.offer orders) q ∧
      best.volume.toNat = matched (book Order.offer orders) q ∧
      best.imbalance.toNat = Library.imbalance (book Order.offer orders) q

theorem Best.Tracks.consider (hlen : orders.length ≤ 2 ^ 32) {best : Best} {c : Option ℕ}
    (h : best.Tracks orders c) (p : UInt32) :
    (best.consider orders p).Tracks orders (pick (book Order.offer orders) c p.toNat) := by
  set m := book Order.offer orders with hm
  have hvolume : (min (demand orders p) (supply orders p)).toNat = matched m p.toNat := by
    rw [toNat_min_u64, Engine.toNat_demand hlen, Engine.toNat_supply hlen, ← min_demandAt_supplyAt]
    rfl
  have himbalance : (absDiff (demand orders p) (supply orders p)).toNat =
      Library.imbalance m p.toNat := by
    rw [toNat_absDiff, Engine.toNat_demand hlen, Engine.toNat_supply hlen, ← dist_demandAt_supplyAt]
    rfl
  simp only [Best.consider]
  set v := min (demand orders p) (supply orders p)
  set i := absDiff (demand orders p) (supply orders p)
  cases c with
  | none =>
    have hbest : best.volume = 0 := h
    have hiff : (best.volume < v ∨ v = best.volume ∧ 0 < v ∧ i < best.imbalance) ↔
        0 < matched m p.toNat := by
      rw [hbest, ← hvolume, UInt64.lt_iff_toNat_lt]
      exact ⟨fun h ↦ h.elim id fun h ↦ h.2.1, Or.inl⟩
    simp only [hiff, pick]
    split_ifs with hpos
    · exact ⟨rfl, hpos, hvolume, himbalance⟩
    · exact hbest
  | some q =>
    obtain ⟨hprice, hpos, hbest, hleast⟩ := h
    rw [← hm] at hpos hbest hleast
    have hiff : (best.volume < v ∨ v = best.volume ∧ 0 < v ∧ i < best.imbalance) ↔
        matched m q < matched m p.toNat ∨
          matched m p.toNat = matched m q ∧
            Library.imbalance m p.toNat < Library.imbalance m q := by
      rw [UInt64.lt_iff_toNat_lt, UInt64.lt_iff_toNat_lt, UInt64.lt_iff_toNat_lt,
        ← UInt64.toNat_inj, hvolume, himbalance, hbest, hleast]
      have hzero : (0 : UInt64).toNat = 0 := rfl
      omega
    simp only [hiff, pick]
    split_ifs with hbetter
    · have hnew : 0 < matched m p.toNat := by omega
      exact ⟨rfl, hnew, hvolume, himbalance⟩
    · exact ⟨hprice, hpos, hbest, hleast⟩

theorem sorted_candidatePrices (orders : List Order) :
    ((candidatePrices orders).map UInt32.toNat).Pairwise (· ≤ ·) := by
  have : Std.Total fun a b : UInt32 ↦ a ≤ b := ⟨UInt32.le_total⟩
  have : IsTrans UInt32 fun a b ↦ a ≤ b := ⟨fun _ _ _ ↦ UInt32.le_trans⟩
  have hsorted : (candidatePrices orders).Pairwise (· ≤ ·) :=
    (List.pairwise_insertionSort (· ≤ ·) (orders.map Order.price)).sublist
      (List.destutter_sublist _ _)
  rw [List.pairwise_map]
  exact hsorted.imp fun hle ↦ UInt32.le_iff_toNat_le.mp hle

/-- The engine's scan decides the auction of the batch. -/
theorem bestPrice_auction (hlen : orders.length ≤ 2 ^ 32) :
    ∃ c, Auction (book Order.offer orders) c ∧ (bestPrice orders).Tracks orders c := by
  have hrun : (bestPrice orders).Tracks orders
      (((candidatePrices orders).map UInt32.toNat).foldl (pick (book Order.offer orders))
        none) := by
    rw [List.foldl_map]
    exact List.foldl_rel rfl fun p _ _ _ h ↦ Best.Tracks.consider hlen h p
  refine ⟨_, auction_scan (sorted_candidatePrices orders) fun p ↦ ?_, hrun⟩
  simp only [List.mem_map, mem_candidatePrices, book, Multiset.mem_coe]
  constructor
  · rintro ⟨_, ⟨o, ho, rfl⟩, rfl⟩
    exact ⟨o.offer, ⟨o, ho, rfl⟩, rfl⟩
  · rintro ⟨_, ⟨o, ho, rfl⟩, rfl⟩
    exact ⟨o.price, ⟨o, ho, rfl⟩, rfl⟩

/-- The best candidate trades as much as any price can. -/
theorem bestPrice_volume_eq (hlen : orders.length ≤ 2 ^ 32) :
    (bestPrice orders).volume.toNat =
        matched (book Order.offer orders) (bestPrice orders).price.toNat ∧
      ∀ q, matched (book Order.offer orders) q ≤ (bestPrice orders).volume.toNat := by
  obtain ⟨c, hc, htracks⟩ := bestPrice_auction hlen
  cases c with
  | none =>
    have hzero : (bestPrice orders).volume = 0 := htracks
    rw [hzero, hc]
    exact ⟨rfl, fun q ↦ (hc q).le⟩
  | some p =>
    obtain ⟨hprice, -, hvolume, -⟩ := htracks
    rw [hvolume, hprice]
    exact ⟨rfl, hc.most⟩

/-! ### What each order is given -/

/-- The engine sorts buys by the auction's priority. -/
theorem buyBefore_eq (a b : OrderRef) :
    buyBefore a b = decide (Precedes true a.order.offer.rank b.order.offer.rank) := by
  rw [Bool.eq_iff_iff]
  simp [buyBefore, Precedes, Keen, Order.offer, UInt32.lt_iff_toNat_lt, UInt32.le_iff_toNat_le,
    ← UInt32.toNat_inj]

/-- The engine sorts sells by the auction's priority. -/
theorem sellBefore_eq (a b : OrderRef) :
    sellBefore a b = decide (Precedes false a.order.offer.rank b.order.offer.rank) := by
  rw [Bool.eq_iff_iff]
  simp [sellBefore, Precedes, Keen, Order.offer, UInt32.lt_iff_toNat_lt, UInt32.le_iff_toNat_le,
    ← UInt32.toNat_inj]

theorem queue_sort {le : OrderRef → OrderRef → Bool} {s : Bool} {p : ℕ} {admits : Order → Bool}
    (hle : ∀ a b, le a b = decide (Precedes s a.order.offer.rank b.order.offer.rank))
    (hadmits : ∀ o : Order, admits o = decide (o.offer.buys = s ∧ Keen s o.offer.limit p)) :
    Queue (fun r : OrderRef ↦ r.order.offer) (refs orders) s p
      (P.orderSort.sort le ((refs orders).filter fun r ↦ admits r.order)) := by
  refine ⟨?_, ?_⟩
  · refine (P.orderSort.perm _ _).trans (List.Perm.of_eq (List.filter_congr fun r _ ↦ ?_))
    rw [hadmits]
  · refine (P.orderSort.sorted le (fun a b ↦ ?_) (fun a b c ↦ ?_) _).imp fun hab ↦ ?_
    · simpa [hle] using precedes_total s a.order.offer.rank b.order.offer.rank
    · simpa [hle] using Precedes.trans
    · simpa [hle] using hab

/-- The eligible orders of a side, sorted, are the auction's queue. -/
theorem queue_eligible (P : Primitives) (orders : List Order) (p : UInt32) (s : Bool) :
    Queue (fun r : OrderRef ↦ r.order.offer) (refs orders) s p.toNat
      (if s then eligibleBuys P orders p else eligibleSells P orders p) := by
  cases s with
  | true => exact queue_sort buyBefore_eq fun o ↦ bids_eq o p
  | false => exact queue_sort sellBefore_eq fun o ↦ asks_eq o p

theorem allocation_eq (P : Primitives) (orders : List Order) :
    allocation P orders =
      allot OrderRef.units (eligibleBuys P orders (bestPrice orders).price)
          (bestPrice orders).volume.toNat ++
        allot OrderRef.units (eligibleSells P orders (bestPrice orders).price)
          (bestPrice orders).volume.toNat := by
  simp only [allocation]
  split_ifs with hvolume
  · rw [hvolume]
    have hnone : ∀ xs, allot OrderRef.units xs (0 : UInt64).toNat = [] := by
      intro xs
      cases xs with
      | nil => rfl
      | cons r xs => exact if_pos rfl
    rw [hnone, hnone, List.append_nil]
  · rfl

/-- The engine rations the book. -/
theorem rations_allotted (P : Primitives) (orders : List Order) :
    Rations (fun r : OrderRef ↦ r.order.offer) (refs orders) (bestPrice orders).price.toNat
      (bestPrice orders).volume.toNat fun r ↦ allotted P orders r.index := by
  refine (rations_of_queues (nodup_refs orders)
    (queue_eligible P orders (bestPrice orders).price)).congr fun r hr ↦ ?_
  rw [allotted_eq_amount hr, allocation_eq]
  rfl

/-- What is reported under an id is what the auction hands to it. -/
theorem toNat_filledUnder_eq_handed (P : Primitives) (hlen : orders.length ≤ 2 ^ 32)
    (id : UInt32) :
    (filledUnder (clear P orders).fills id).toNat =
      handed (book Order.offer orders) true (bestPrice orders).price.toNat
          (bestPrice orders).volume.toNat id.toNat +
        handed (book Order.offer orders) false (bestPrice orders).price.toNat
          (bestPrice orders).volume.toNat id.toNat := by
  have hbook : book (fun r : OrderRef ↦ r.order.offer) (refs orders) =
      book Order.offer orders := by
    rw [book, book, ← map_order_refs orders, List.map_map, map_order_refs]
    rfl
  have hid : ∀ r : OrderRef, (r.order.id == id) = decide (r.order.offer.id = id.toNat) := by
    intro r
    rw [Bool.eq_iff_iff, beq_iff_eq, decide_eq_true_eq, ← UInt32.toNat_inj]
    rfl
  have hbuys := (queue_eligible P orders (bestPrice orders).price true).sum_allot_id
    (bestPrice orders).volume.toNat id.toNat
  have hsells := (queue_eligible P orders (bestPrice orders).price false).sum_allot_id
    (bestPrice orders).volume.toNat id.toNat
  rw [toNat_filledUnder hlen, sum_allotted_filter P orders fun r ↦ r.order.id == id, allocation_eq,
    List.filter_append, List.map_append, List.sum_append, ← hbook, ← hbuys, ← hsells]
  simp only [hid]
  rfl

/-! ### The clearing -/

/-- A clearing is the outcome of the auction: its price, its volume, and what each id is given. -/
theorem clear_auction (P : Primitives) (hlen : orders.length ≤ 2 ^ 32) :
    ∃ c, Auction (book Order.offer orders) c ∧ (clear P orders).price.toNat = c.getD 0 ∧
      (clear P orders).volume.toNat = traded (book Order.offer orders) c ∧
      ∀ id, (filledUnder (clear P orders).fills id).toNat =
        fillOf (book Order.offer orders) c id.toNat := by
  obtain ⟨c, hc, htracks⟩ := bestPrice_auction hlen
  refine ⟨c, hc, ?_⟩
  rw [clear_price, clear_volume]
  cases c with
  | none =>
    have hzero : (bestPrice orders).volume = 0 := htracks
    rw [if_pos hzero, hzero]
    refine ⟨rfl, rfl, fun id ↦ ?_⟩
    rw [filledUnder_of_allocation_nil (by simp [allocation, hzero])]
    rfl
  | some p =>
    obtain ⟨hprice, hpos, hvolume, -⟩ := htracks
    have hne : (bestPrice orders).volume ≠ 0 := by
      intro hzero
      rw [hzero] at hvolume
      exact absurd hvolume hpos.ne
    rw [if_neg hne, hprice]
    refine ⟨rfl, hvolume, fun id ↦ ?_⟩
    rw [toNat_filledUnder_eq_handed P hlen, hprice, hvolume]
    rfl

/-- The volume is what demand and supply can trade at the best price there is, submitted or not; a
batch that trades clears at a submitted price, and of the submitted prices that trade as much at the
one where demand and supply are closest, the lowest if several are. -/
theorem clear_price_optimal (P : Primitives) (orders : List Order)
    (hlen : orders.length < 2 ^ 32) :
    (∀ p, min (demandAt orders p) (supplyAt orders p) ≤ (clear P orders).volume.toNat) ∧
      (0 < (clear P orders).volume →
        (∃ o ∈ orders, o.price = (clear P orders).price) ∧
        min (demandAt orders (clear P orders).price) (supplyAt orders (clear P orders).price) =
          (clear P orders).volume.toNat ∧
        ∀ o ∈ orders,
          min (demandAt orders o.price) (supplyAt orders o.price) =
            (clear P orders).volume.toNat →
          Nat.dist (demandAt orders (clear P orders).price)
              (supplyAt orders (clear P orders).price) ≤
            Nat.dist (demandAt orders o.price) (supplyAt orders o.price) ∧
          (Nat.dist (demandAt orders o.price) (supplyAt orders o.price) =
              Nat.dist (demandAt orders (clear P orders).price)
                (supplyAt orders (clear P orders).price) →
            (clear P orders).price ≤ o.price)) := by
  obtain ⟨c, hc, hprice, hvolume, -⟩ := clear_auction P hlen.le
  simp only [min_demandAt_supplyAt, dist_demandAt_supplyAt, hvolume]
  refine ⟨fun p ↦ hc.matched_le _, fun hpos ↦ ?_⟩
  have hmem : ∀ {o}, o ∈ orders → o.offer ∈ book Order.offer orders := fun ho ↦
    Multiset.mem_coe.mpr (List.mem_map_of_mem ho)
  cases c with
  | none =>
    rw [UInt64.lt_iff_toNat_lt, hvolume] at hpos
    exact absurd hpos (by simp [traded])
  | some p =>
    rw [Option.getD_some] at hprice
    obtain ⟨x, hx, hlimit⟩ := hc.submitted
    obtain ⟨o, ho, rfl⟩ := List.mem_map.mp (Multiset.mem_coe.mp hx)
    rw [hprice]
    have hat : o.price = (clear P orders).price :=
      UInt32.toNat_inj.mp (hlimit.trans hprice.symm)
    refine ⟨⟨o, ho, hat⟩, rfl, fun o' ho' hsame ↦ ?_⟩
    refine ⟨hc.closest o'.offer (hmem ho') hsame, fun htie ↦ ?_⟩
    rw [UInt32.le_iff_toNat_le, hprice]
    exact hc.lowest _ (hmem ho') hsame htie

/-- A buy and a sell that can trade in full at either limit. -/
def wideSpread : List Order := [⟨1, 1, .buy, 6, 10⟩, ⟨2, 2, .sell, 4, 10⟩]

theorem clear_price_optimal_wideSpread :
    wideSpread.length < 2 ^ 32 ∧ (clear Primitives.toy wideSpread).price = 4 ∧
      (∀ p, min (demandAt wideSpread p) (supplyAt wideSpread p) ≤ 10) ∧
      ∃ o ∈ wideSpread, o.price = (clear Primitives.toy wideSpread).price := by
  obtain ⟨hmost, htrade⟩ := clear_price_optimal Primitives.toy wideSpread (by decide)
  have hvolume : (clear Primitives.toy wideSpread).volume = 10 := by decide +kernel
  rw [hvolume] at hmost htrade
  exact ⟨by decide, by decide +kernel, hmost, (htrade (by decide)).1⟩

end Jamswap.Engine
