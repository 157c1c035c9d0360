import Jamswap.Builder.Orders
import Jamswap.Engine.Auction

/-!
# The builder's clearing is the engine's

The builder recomputes a round's clearing to tell what each order was filled. Its port works on
unbounded integers, with a stable sort and no imbalance where the engine starts from the largest
word. Both are the same auction: the builder's scan decides it (`bestPrice_auction`), its sides are
the auction's queues (`queue_eligible`), and an auction has one outcome. So `clear_eq_engine_clear`
holds for the orders of a batch in any arrangement.
-/

namespace Jamswap.Builder

open Library

/-- An order dictionary as an offer to the auction. -/
def Order.offer (o : Order) : Offer ℕ ℕ := ⟨o.side == .buy, o.price, o.oid, o.qty⟩

variable {orders : List Order}

/-! ### The clearing price -/

theorem eligible_buy_iff (o : Order) (p : ℕ) :
    o.side = .buy ∧ p ≤ o.price ↔ o.offer.buys = true ∧ Keen true o.offer.limit p := by
  simp [Order.offer, Keen]

theorem eligible_sell_iff (o : Order) (p : ℕ) :
    o.side = .sell ∧ o.price ≤ p ↔ o.offer.buys = false ∧ Keen false o.offer.limit p := by
  cases hside : o.side with
  | buy => simp [Order.offer, hside]
  | sell => simp [Order.offer, hside, Keen]

theorem demand_eq (orders : List Order) (p : ℕ) :
    demand orders p = depth (book Order.offer orders) true p := by
  rw [depth, weight_filter_book, demand]
  simp only [eligible_buy_iff]
  rfl

theorem supply_eq (orders : List Order) (p : ℕ) :
    supply orders p = depth (book Order.offer orders) false p := by
  rw [depth, weight_filter_book, supply]
  simp only [eligible_sell_iff]
  rfl

/-- The best candidate so far is the scan's. -/
def Best.Tracks (orders : List Order) (best : Best) : Option ℕ → Prop
  | none => best.volume = 0
  | some q => best.price = q ∧ 0 < matched (book Order.offer orders) q ∧
      best.volume = matched (book Order.offer orders) q ∧
      best.imbalance = some (Library.imbalance (book Order.offer orders) q)

theorem Best.Tracks.consider {best : Best} {c : Option ℕ} (h : best.Tracks orders c) (p : ℕ) :
    (best.consider orders p).Tracks orders (pick (book Order.offer orders) c p) := by
  set m := book Order.offer orders with hm
  have hvolume : min (demand orders p) (supply orders p) = matched m p := by
    rw [demand_eq, supply_eq, matched]
  have himbalance : demand orders p - supply orders p + (supply orders p - demand orders p) =
      Library.imbalance m p := by
    rw [demand_eq, supply_eq, Library.imbalance, Nat.dist]
  simp only [Best.consider, hvolume, himbalance]
  cases c with
  | none =>
    have hbest : best.volume = 0 := h
    have hiff : (best.volume < matched m p ∨ matched m p = best.volume ∧ 0 < matched m p ∧
        ∀ i ∈ best.imbalance, Library.imbalance m p < i) ↔ 0 < matched m p := by
      rw [hbest]
      exact ⟨fun h ↦ h.elim id fun h ↦ h.2.1, Or.inl⟩
    simp only [hiff, pick]
    split_ifs with hpos
    · exact ⟨rfl, hpos, rfl, rfl⟩
    · exact hbest
  | some q =>
    obtain ⟨hprice, hpos, hbest, hleast⟩ := h
    rw [← hm] at hpos hbest hleast
    have hiff : (best.volume < matched m p ∨ matched m p = best.volume ∧ 0 < matched m p ∧
        ∀ i ∈ best.imbalance, Library.imbalance m p < i) ↔
          matched m q < matched m p ∨
            matched m p = matched m q ∧ Library.imbalance m p < Library.imbalance m q := by
      simp only [hbest, hleast, Option.mem_some_iff, forall_eq']
      omega
    simp only [hiff, pick]
    split_ifs with hbetter
    · have hnew : 0 < matched m p := by omega
      exact ⟨rfl, hnew, rfl, rfl⟩
    · exact ⟨hprice, hpos, hbest, hleast⟩

/-- The builder's scan decides the auction of the batch. -/
theorem bestPrice_auction (orders : List Order) :
    ∃ c, Auction (book Order.offer orders) c ∧ (bestPrice orders).Tracks orders c := by
  refine ⟨_, auction_scan (List.pairwise_insertionSort (· ≤ ·) _) fun p ↦ ?_,
    List.foldl_rel (r := fun best c ↦ Best.Tracks orders best c) rfl fun p _ _ _ h ↦ h.consider p⟩
  rw [(List.perm_insertionSort _ _).mem_iff, List.mem_dedup]
  simp only [List.mem_map, book, Multiset.mem_coe]
  constructor
  · rintro ⟨o, ho, rfl⟩
    exact ⟨o.offer, ⟨o, ho, rfl⟩, rfl⟩
  · rintro ⟨_, ⟨o, ho, rfl⟩, rfl⟩
    exact ⟨o, ho, rfl⟩

/-! ### What each order is given -/

theorem queue_insertionSort {le : Order → Order → Prop} [DecidableRel le] {s : Bool} {p : ℕ}
    {admits : Order → Prop} [DecidablePred admits]
    (hle : ∀ a b, le a b ↔ Precedes s a.offer.rank b.offer.rank)
    (hadmits : ∀ o, admits o ↔ o.offer.buys = s ∧ Keen s o.offer.limit p) :
    Queue Order.offer orders s p ((orders.filter fun o ↦ admits o).insertionSort le) := by
  have : Std.Total le := ⟨fun a b ↦ by
    rw [hle, hle]
    exact precedes_total s _ _⟩
  have : IsTrans Order le := ⟨fun a b c hab hbc ↦ (hle a c).mpr
    (((hle a b).mp hab).trans ((hle b c).mp hbc))⟩
  refine ⟨(List.perm_insertionSort _ _).trans (List.Perm.of_eq (List.filter_congr fun o _ ↦ ?_)),
    (List.pairwise_insertionSort le _).imp fun hab ↦ (hle _ _).mp hab⟩
  exact decide_eq_decide.mpr (hadmits o)

/-- The eligible orders of a side, sorted, are the auction's queue. -/
theorem queue_eligible (orders : List Order) (p : ℕ) (s : Bool) :
    Queue Order.offer orders s p (if s then eligibleBuys orders p else eligibleSells orders p) := by
  cases s with
  | true =>
    refine queue_insertionSort (fun a b ↦ ?_) fun o ↦ eligible_buy_iff o p
    simp [Precedes, Keen, Order.offer]
  | false =>
    refine queue_insertionSort (fun a b ↦ ?_) fun o ↦ eligible_sell_iff o p
    simp [Precedes, Keen, Order.offer]

theorem ration_eq_allot (side : List Order) (rem : ℕ) :
    ration side rem = (allot Order.qty side rem).map fun a ↦ (a.1.oid, a.2) := by
  induction side generalizing rem with
  | nil => rfl
  | cons o side ih =>
    rw [ration, allot]
    split_ifs with hrem
    · rfl
    · simp only [List.map_cons, ih]

/-- The builder's clearing is the outcome of the auction. -/
theorem clear_auction (orders : List Order) :
    ∃ c, Auction (book Order.offer orders) c ∧ (clear orders).price = c.getD 0 ∧
      (clear orders).volume = traded (book Order.offer orders) c ∧
      ∀ oid, (clear orders).filled oid = fillOf (book Order.offer orders) c oid := by
  obtain ⟨c, hc, htracks⟩ := bestPrice_auction orders
  refine ⟨c, hc, ?_⟩
  cases c with
  | none =>
    have hzero : (bestPrice orders).volume = 0 := htracks
    simp only [clear, if_pos hzero]
    exact ⟨rfl, rfl, fun _ ↦ rfl⟩
  | some p =>
    obtain ⟨hprice, hpos, hvolume, -⟩ := htracks
    simp only [clear, hprice, hvolume, if_neg hpos.ne']
    refine ⟨rfl, rfl, fun oid ↦ ?_⟩
    have hbuys := (queue_eligible orders p true).sum_allot_id (matched (book Order.offer orders) p)
      oid
    have hsells := (queue_eligible orders p false).sum_allot_id
      (matched (book Order.offer orders) p) oid
    rw [Clearing.filled, fillOf, ← hbuys, ← hsells]
    simp only [ration_eq_allot, List.filter_append, List.map_append, List.sum_append,
      List.filter_map, List.map_map]
    rfl

/-- Two copies of one book are cleared alike. -/
theorem clear_of_same_book (P : Engine.Primitives) {orders : List Engine.Order} {dicts : List Order}
    (hlen : orders.length < 2 ^ 32)
    (hbook : book Order.offer dicts = book Engine.Order.offer orders) :
    (clear dicts).price = (Engine.clear P orders).price.toNat ∧
      (clear dicts).volume = (Engine.clear P orders).volume.toNat ∧
      ∀ id : UInt32, (clear dicts).filled id.toNat =
        (Engine.filledUnder (Engine.clear P orders).fills id).toNat := by
  obtain ⟨c, hc, hprice, hvolume, hfills⟩ := clear_auction dicts
  obtain ⟨c', hc', hprice', hvolume', hfills'⟩ := Engine.clear_auction P hlen.le
  rw [hbook] at hc hvolume hfills
  obtain rfl := hc.unique hc'
  refine ⟨hprice.trans hprice'.symm, hvolume.trans hvolume'.symm, fun id ↦ ?_⟩
  rw [hfills, hfills']

/-- On a batch of fewer than `2 ^ 32` orders, the builder's clearing of the orders in any
arrangement has the engine's price and volume, and fills every id as much. -/
theorem clear_eq_engine_clear (P : Engine.Primitives) (orders : List Engine.Order)
    (hlen : orders.length < 2 ^ 32) (dicts : List Order)
    (hperm : (dicts.map Order.offer).Perm (orders.map Engine.Order.offer)) :
    (clear dicts).price = (Engine.clear P orders).price.toNat ∧
      (clear dicts).volume = (Engine.clear P orders).volume.toNat ∧
      ∀ id : UInt32, (clear dicts).filled id.toNat =
        (Engine.filledUnder (Engine.clear P orders).fills id).toNat :=
  clear_of_same_book P hlen (Multiset.coe_eq_coe.mpr hperm)

/-- Two buys under one id, and a sell of nothing. -/
def repeatedIds : List Engine.Order :=
  [⟨1, 7, .buy, 5, 4⟩, ⟨2, 7, .buy, 6, 3⟩, ⟨3, 9, .sell, 5, 0⟩, ⟨4, 8, .sell, 4, 5⟩]

theorem clear_eq_engine_clear_repeatedIds :
    repeatedIds.length < 2 ^ 32 ∧
      (clear (repeatedIds.reverse.map restingOrder)).price =
        (Engine.clear .toy repeatedIds).price.toNat ∧
      (clear (repeatedIds.reverse.map restingOrder)).filled 7 = 5 ∧
      (Engine.filledUnder (Engine.clear .toy repeatedIds).fills 7).toNat = 5 := by
  have hperm : ((repeatedIds.reverse.map restingOrder).map Order.offer).Perm
      (repeatedIds.map Engine.Order.offer) := by
    rw [List.map_map]
    exact (List.reverse_perm repeatedIds).map Engine.Order.offer
  obtain ⟨hprice, -, hfilled⟩ :=
    clear_eq_engine_clear .toy repeatedIds (by decide) (repeatedIds.reverse.map restingOrder) hperm
  have hseven : (clear (repeatedIds.reverse.map restingOrder)).filled 7 = 5 := by decide +kernel
  exact ⟨by decide, hprice, hseven, (hfilled 7).symm.trans hseven⟩

end Jamswap.Builder
