import Jamswap.Builder.Parity
import Jamswap.Builder.Planning

/-!
# Crossing orders

The planner reveals a sealed order when it crosses the best opposing price of the liquidity it
judges by, that is when it crosses some order there (`crosses_iff`). Crossing is mutual, so whatever
a revealed order crosses is itself in the batch: nothing is revealed alone
(`planBatch_divides_queue`). What is held back crosses nothing, and offers that cross nothing leave
an auction as it is, so holding them back does not change the clearing (`holding_back_neutral`).
-/

namespace Jamswap.Builder

open Library

/-- The orders stand on opposite sides at prices that meet. -/
def Order.Crosses (o c : Order) : Prop :=
  o.side = .buy ∧ c.side = .sell ∧ c.price ≤ o.price ∨
    o.side = .sell ∧ c.side = .buy ∧ o.price ≤ c.price

variable {o c : Order} {orders : List Order}

theorem Order.Crosses.symm (h : o.Crosses c) : c.Crosses o := by
  rcases h with ⟨ho, hc, hprice⟩ | ⟨ho, hc, hprice⟩
  · exact Or.inr ⟨hc, ho, hprice⟩
  · exact Or.inl ⟨hc, ho, hprice⟩

theorem crosses_iff_keen :
    o.Crosses c ↔ c.offer.buys = (!o.offer.buys) ∧
      Keen o.offer.buys o.offer.limit c.offer.limit := by
  cases ho : o.side with
  | buy =>
    have hbuys : o.offer.buys = true := by simp [Order.offer, ho]
    rw [hbuys]
    cases hc : c.side <;> simp [Order.Crosses, Order.offer, Keen, ho, hc]
  | sell =>
    have hbuys : o.offer.buys = false := by simp [Order.offer, ho]
    rw [hbuys]
    cases hc : c.side <;> simp [Order.Crosses, Order.offer, Keen, ho, hc]

/-! ### The best opposing price -/

theorem any_min?_le (prices : List ℕ) (p : ℕ) :
    prices.min?.any (fun q ↦ decide (q ≤ p)) = true ↔ ∃ q ∈ prices, q ≤ p := by
  cases hmin : prices.min? with
  | none =>
    rw [List.min?_eq_none_iff] at hmin
    simp [hmin]
  | some least =>
    rw [List.min?_eq_some_iff] at hmin
    obtain ⟨hmem, hle⟩ := hmin
    simp only [Option.any_some, decide_eq_true_eq]
    exact ⟨fun h ↦ ⟨least, hmem, h⟩, fun ⟨q, hq, h⟩ ↦ (hle q hq).trans h⟩

theorem any_le_max? (prices : List ℕ) (p : ℕ) :
    prices.max?.any (fun q ↦ decide (p ≤ q)) = true ↔ ∃ q ∈ prices, p ≤ q := by
  cases hmax : prices.max? with
  | none =>
    rw [List.max?_eq_none_iff] at hmax
    simp [hmax]
  | some most =>
    rw [List.max?_eq_some_iff] at hmax
    obtain ⟨hmem, hle⟩ := hmax
    simp only [Option.any_some, decide_eq_true_eq]
    exact ⟨fun h ↦ ⟨most, hmem, h⟩, fun ⟨q, hq, h⟩ ↦ h.trans (hle q hq)⟩

/-- To cross the best opposing price is to cross some order. -/
theorem crosses_iff :
    crosses o (bestOpposing orders).1 (bestOpposing orders).2 = true ↔
      ∃ c ∈ orders, o.Crosses c := by
  cases hside : o.side with
  | buy =>
    simp only [crosses, hside, bestOpposing, any_min?_le, List.mem_map, List.mem_filter,
      decide_eq_true_eq, Order.Crosses, true_and, reduceCtorEq, false_and, or_false]
    grind
  | sell =>
    simp only [crosses, hside, bestOpposing, any_le_max?, List.mem_map, List.mem_filter,
      decide_eq_true_eq, Order.Crosses, true_and, reduceCtorEq, false_and, false_or]
    grind

section Round

variable {pending resting : List Order} {now : Time} {ready : Order → Bool} {o : Order}

/-- The sealed orders a plan judges: those whose commit is there. -/
def readyOrders (pending : List Order) (ready : Order → Bool) : List Order :=
  (pending.filter fun o ↦ o.sealed).filter ready

theorem planCrosses_iff : planCrosses pending resting ready o = true ↔
    ∃ c ∈ resting ++ (pending.filter fun o ↦ !o.sealed) ++ readyOrders pending ready,
      o.Crosses c := crosses_iff

/-- A revealed order crosses an order of the batch. -/
theorem exists_crosses_of_reveal (ho : o ∈ (planRound pending resting now ready).reveal) :
    ∃ c ∈ resting ++ (planRound pending resting now ready).publicOrders ++
      (planRound pending resting now ready).reveal, o.Crosses c := by
  obtain ⟨hmem, hsealed, hready, hcrosses⟩ := mem_reveal.mp ho
  obtain ⟨c, hc, hcross⟩ := planCrosses_iff.mp hcrosses
  refine ⟨c, ?_, hcross⟩
  rcases List.mem_append.mp hc with hopen | hhidden
  · exact List.mem_append_left _ hopen
  · -- crossing is mutual: a ready sealed order that `o` crosses is revealed with it
    obtain ⟨hc', hcready⟩ := List.mem_filter.mp hhidden
    obtain ⟨hcmem, hcsealed⟩ := List.mem_filter.mp hc'
    refine List.mem_append_right _ (mem_reveal.mpr ⟨hcmem, hcsealed, hcready, ?_⟩)
    refine planCrosses_iff.mpr ⟨o, List.mem_append_right _ ?_, hcross.symm⟩
    exact List.mem_filter.mpr ⟨List.mem_filter.mpr ⟨hmem, hsealed⟩, hready⟩

end Round

/-! ### Nothing is revealed alone -/

theorem depth_pos (ho : o ∈ orders) (hqty : 0 < o.qty) {p : ℕ}
    (hkeen : Keen o.offer.buys o.offer.limit p) :
    0 < depth (book Order.offer orders) o.offer.buys p := by
  rw [depth, weight_filter_book]
  refine hqty.trans_le (List.single_le_sum (fun _ _ ↦ Nat.zero_le _) _ ?_)
  exact List.mem_map.mpr ⟨o, List.mem_filter.mpr ⟨ho, by simp [hkeen]⟩, rfl⟩

/-- A batch with two orders that cross trades. -/
theorem volume_pos_of_crosses (ho : o ∈ orders) (hc : c ∈ orders) (hcross : o.Crosses c)
    (hoqty : 0 < o.qty) (hcqty : 0 < c.qty) : 0 < (clear orders).volume := by
  obtain ⟨price, hauction, -, hvolume, -⟩ := clear_auction orders
  rw [hvolume]
  obtain ⟨hside, hkeen⟩ := crosses_iff_keen.mp hcross
  refine lt_of_lt_of_le ?_ (hauction.matched_le c.offer.limit)
  have hown := depth_pos ho hoqty hkeen
  have hother := depth_pos hc hcqty (Keen.refl _ _)
  rw [hside] at hother
  rw [matched]
  cases hbuys : o.offer.buys with
  | true =>
    rw [hbuys] at hown hother
    exact lt_min hown hother
  | false =>
    rw [hbuys] at hown hother
    exact lt_min hother hown

/-- Planning divides the queue and reveals nothing alone. For any policy that selects a batch from
its candidates, every order of a queue of distinct orders is in one part of the plan, once; every
revealed order is ready and crosses an order of the batch or of the book; and when quantities are
positive, a batch that reveals something trades. -/
theorem planBatch_divides_queue (pending resting : List Order) (fit : List Order → List Order)
    (now : Time) (ready : Order → Bool) (hpending : pending.Nodup)
    (hfit : ∀ cands, (fit cands).Subperm cands) :
    (planBatch pending resting fit now ready).parts.Perm pending ∧
      (∀ o ∈ (planBatch pending resting fit now ready).reveal, ready o = true ∧
        ∃ c ∈ resting ++ (planBatch pending resting fit now ready).publicOrders ++
          (planBatch pending resting fit now ready).reveal, o.Crosses c) ∧
      ((∀ o ∈ resting ++ pending, 0 < o.qty) →
        (planBatch pending resting fit now ready).reveal ≠ [] →
          0 < (clear (resting ++ (planBatch pending resting fit now ready).publicOrders ++
            (planBatch pending resting fit now ready).reveal)).volume) := by
  have hparts := @parts_perm pending resting fit now ready hfit hpending
  have hcross : ∀ o ∈ (planBatch pending resting fit now ready).reveal,
      ∃ c ∈ resting ++ (planBatch pending resting fit now ready).publicOrders ++
        (planBatch pending resting fit now ready).reveal, o.Crosses c := by
    obtain ⟨batch, -, -, hreveal, hpublic, -⟩ := planBatch_spec pending resting now ready hfit
    rw [hreveal, hpublic]
    exact fun o ho ↦ exists_crosses_of_reveal ho
  refine ⟨hparts, fun o ho ↦ ⟨(ready_of_reveal hfit ho).2, hcross o ho⟩, fun hqty hne ↦ ?_⟩
  obtain ⟨o, ho⟩ := List.exists_mem_of_ne_nil _ hne
  obtain ⟨c, hc, hmeets⟩ := hcross o ho
  have hbatch : ∀ x ∈ resting ++ (planBatch pending resting fit now ready).publicOrders ++
      (planBatch pending resting fit now ready).reveal, 0 < x.qty := by
    intro x hx
    refine hqty x ?_
    have hsub := (@batch_subperm pending resting fit now ready hfit).subset
    simp only [List.mem_append] at hx ⊢
    rcases hx with (hx | hx) | hx
    · exact Or.inl hx
    · exact Or.inr (hsub (List.mem_append_right _ hx))
    · exact Or.inr (hsub (List.mem_append_left _ hx))
  have ho' := List.mem_append_right
    (resting ++ (planBatch pending resting fit now ready).publicOrders) ho
  exact volume_pos_of_crosses ho' hc hmeets (hbatch o ho') (hbatch c hc)

/-- A sealed buy, a public sell it crosses, and a sealed sell that does not fit. -/
def crossedQueue : List Order :=
  [{ ref := 1, account := 1, oid := 1, side := .buy, price := 5, qty := 2, sealed := true },
    { ref := 2, account := 2, oid := 2, side := .sell, price := 4, qty := 3 },
    { ref := 3, account := 3, oid := 3, side := .sell, price := 5, qty := 1, sealed := true }]

theorem planBatch_divides_queue_crossedQueue :
    (planBatch crossedQueue [] (List.take 2) 0 fun _ ↦ true).reveal.map Order.oid = [1] ∧
      (planBatch crossedQueue [] (List.take 2) 0 fun _ ↦ true).overflow.map Order.oid = [3] ∧
      0 < (clear ((planBatch crossedQueue [] (List.take 2) 0 fun _ ↦ true).publicOrders ++
        (planBatch crossedQueue [] (List.take 2) 0 fun _ ↦ true).reveal)).volume := by
  have hplan := planBatch_divides_queue crossedQueue [] (List.take 2) 0 (fun _ ↦ true)
    (by decide) fun cands ↦ (List.take_sublist 2 cands).subperm
  refine ⟨by decide +kernel, by decide +kernel, ?_⟩
  exact hplan.2.2 (by decide) (by decide +kernel)

/-! ### Holding back sealed orders -/

section Neutral

variable {pending resting : List Order} {now : Time} {ready : Order → Bool}

/-- The ready orders a plan does not reveal. -/
def heldBack (pending resting : List Order) (ready : Order → Bool) : List Order :=
  (readyOrders pending ready).filter fun o ↦ !planCrosses pending resting ready o

theorem reveal_eq_filter (pending resting : List Order) (now : Time) (ready : Order → Bool) :
    (planRound pending resting now ready).reveal =
      (readyOrders pending ready).filter (planCrosses pending resting ready) := rfl

theorem not_crosses_of_heldBack (ho : o ∈ heldBack pending resting ready) :
    ∀ c ∈ resting ++ (pending.filter fun o ↦ !o.sealed) ++ readyOrders pending ready,
      ¬ o.Crosses c := by
  intro c hc hcross
  have hheld := (List.mem_filter.mp ho).2
  rw [planCrosses_iff.mpr ⟨c, hc, hcross⟩] at hheld
  cases hheld

theorem book_append (orders orders' : List Order) :
    book Order.offer (orders ++ orders') = book Order.offer orders + book Order.offer orders' := by
  rw [book, List.map_append, ← Multiset.coe_add]
  rfl

variable (pending resting now ready) in
/-- The book with all ready orders is the batch's with the held back orders added. -/
theorem book_ready :
    book Order.offer (resting ++ (planRound pending resting now ready).publicOrders ++
        readyOrders pending ready) =
      book Order.offer (resting ++ (planRound pending resting now ready).publicOrders ++
        (planRound pending resting now ready).reveal) +
        book Order.offer (heldBack pending resting ready) := by
  have hsplit : ((planRound pending resting now ready).reveal ++
      heldBack pending resting ready).Perm (readyOrders pending ready) :=
    List.filter_append_perm _ _
  rw [← book_append, List.append_assoc (resting ++ _)]
  exact Multiset.coe_eq_coe.mpr ((hsplit.symm.append_left _).map Order.offer)

variable (pending resting now ready) in
theorem idle_heldBack :
    Idle (book Order.offer (resting ++ (planRound pending resting now ready).publicOrders ++
      (planRound pending resting now ready).reveal))
      (book Order.offer (heldBack pending resting ready)) := by
  intro offer hoffer offer' hoffer' hside hkeen
  rw [← book_ready] at hoffer'
  obtain ⟨o, ho, rfl⟩ := List.mem_map.mp (Multiset.mem_coe.mp hoffer)
  obtain ⟨c, hc, rfl⟩ := List.mem_map.mp (Multiset.mem_coe.mp hoffer')
  exact not_crosses_of_heldBack ho c hc (crosses_iff_keen.mpr ⟨hside, hkeen⟩)

/-- At a price that trades, the eligible orders are the same with and without those held back. -/
theorem filter_eligible {p : ℕ} {eligible : Order → Bool}
    (heligible : ∀ o, eligible o = true → Keen o.offer.buys o.offer.limit p)
    (htrades : 0 < matched (book Order.offer (resting ++
      (planRound pending resting now ready).publicOrders ++
        (planRound pending resting now ready).reveal)) p) :
    (resting ++ (planRound pending resting now ready).publicOrders ++
        (planRound pending resting now ready).reveal).filter eligible =
      (resting ++ (planRound pending resting now ready).publicOrders ++
        readyOrders pending ready).filter eligible := by
  have hready : ((planRound pending resting now ready).reveal).filter eligible =
      (readyOrders pending ready).filter eligible := by
    rw [reveal_eq_filter, List.filter_filter]
    refine List.filter_congr fun o ho ↦ ?_
    cases hcross : planCrosses pending resting ready o with
    | true => exact Bool.and_true _
    | false =>
      have hheld : o ∈ heldBack pending resting ready :=
        List.mem_filter.mpr ⟨ho, by rw [hcross]; rfl⟩
      have hnot := (idle_heldBack pending resting now ready).not_keen htrades
        (Multiset.mem_coe.mpr (List.mem_map_of_mem hheld))
      rw [Bool.and_false, eq_comm, Bool.eq_false_iff]
      exact fun he ↦ hnot (heligible o he)
  rw [List.filter_append, hready, ← List.filter_append]

end Neutral

/-- Holding back sealed orders is neutral: the book, the public orders and the revealed orders clear
as the book, the public orders and all sealed orders that are ready do. -/
theorem holding_back_neutral (pending resting : List Order) (now : Time) (ready : Order → Bool) :
    clear (resting ++ (planRound pending resting now ready).publicOrders ++
        (planRound pending resting now ready).reveal) =
      clear (resting ++ (planRound pending resting now ready).publicOrders ++
        (pending.filter fun o ↦ o.sealed).filter ready) := by
  set batch := resting ++ (planRound pending resting now ready).publicOrders ++
    (planRound pending resting now ready).reveal with hbatch
  set all := resting ++ (planRound pending resting now ready).publicOrders ++
    readyOrders pending ready with hall
  change clear batch = clear all
  have hidle := idle_heldBack pending resting now ready
  have hbook : book Order.offer all =
      book Order.offer batch + book Order.offer (heldBack pending resting ready) :=
    book_ready pending resting now ready
  obtain ⟨c, hc, htracks⟩ := bestPrice_auction batch
  obtain ⟨c', hc', htracks'⟩ := bestPrice_auction all
  obtain rfl : c = c' := by
    refine Auction.unique ?_ hc'
    rw [hbook]
    exact hc.add_idle hidle
  cases c with
  | none =>
    have hzero : (bestPrice batch).volume = 0 := htracks
    have hzero' : (bestPrice all).volume = 0 := htracks'
    rw [clear, clear, if_pos hzero, if_pos hzero']
  | some p =>
    obtain ⟨hprice, hpos, hvolume, -⟩ := htracks
    obtain ⟨hprice', hpos', hvolume', -⟩ := htracks'
    have hsame : matched (book Order.offer all) p = matched (book Order.offer batch) p := by
      rw [hbook, hidle.matched_add]
    have hbuys : eligibleBuys batch p = eligibleBuys all p := by
      rw [eligibleBuys, eligibleBuys, filter_eligible (p := p) ?_ hpos]
      intro o ho
      obtain ⟨hside, hkeen⟩ := (eligible_buy_iff o p).mp (of_decide_eq_true ho)
      rwa [hside]
    have hsells : eligibleSells batch p = eligibleSells all p := by
      rw [eligibleSells, eligibleSells, filter_eligible (p := p) ?_ hpos]
      intro o ho
      obtain ⟨hside, hkeen⟩ := (eligible_sell_iff o p).mp (of_decide_eq_true ho)
      rwa [hside]
    rw [clear, clear]
    simp only [hprice, hvolume, hprice', hvolume', hsame, hbuys, hsells]

end Jamswap.Builder
