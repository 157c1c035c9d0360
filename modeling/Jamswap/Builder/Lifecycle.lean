import Jamswap.Builder.Builds
import Jamswap.Builder.OneEnd

/-!
# The life of an order

What holds in every state of every run of one market's builder, whatever the chain, the committee
and the clock answer, as long as the decisions on record meet a condition: no order is lost
(`no_order_lost`), none is queued twice (`no_order_queued_twice`), and none ends twice
(`orders_end_once`). Each condition is needed: without it there are runs that lose an order, queue
one twice or end one twice.
-/

namespace Jamswap.Builder

open Library Engine Service Prog

/-! ### Properties of a state -/

/-- The order is in the mempool, in the round in flight, in a released round sighted as landed, in
the carry-retry queue, or left resting on the book by a finalized round. -/
def State.Holds (s : State) (p : Pair) : Prop :=
  (∃ o ∈ s.pending, o.pair = p) ∨ (∃ fr ∈ s.inflight.toList, ∃ o ∈ fr.orders, o.pair = p) ∨
    (∃ z ∈ s.zombies, z.sighted = true ∧ ∃ o ∈ z.orders, o.pair = p) ∨
    (∃ o ∈ s.carryRetry, o.pair = p) ∨ p ∈ s.rested

instance (s : State) (p : Pair) : Decidable (s.Holds p) := by
  unfold State.Holds
  infer_instance

/-- Every placed order is over or held. -/
def State.LosesNone (s : State) : Prop := ∀ p ∈ s.placed, p ∉ s.ended → s.Holds p

instance (s : State) : Decidable s.LosesNone := by
  unfold State.LosesNone
  infer_instance

/-- No key is queued twice, and none that the round in flight owns or a sighted released round
carries. -/
def State.QueuesOnce (s : State) : Prop :=
  (s.pending.map Order.key).Nodup ∧
    (∀ fr ∈ s.inflight.toList, ∀ o ∈ fr.unclaimed fr.orders, o.key ∉ s.pending.map Order.key) ∧
    ∀ z ∈ s.zombies, z.sighted = true → ∀ k ∈ z.keys, k ∉ s.pending.map Order.key

instance (s : State) : Decidable s.QueuesOnce := by
  unfold State.QueuesOnce
  infer_instance

/-- No order is given two terminal outcomes, no round id is finalized twice, and an order that is
over is neither queued nor owned by the round in flight. -/
def State.EndsOnce (s : State) : Prop :=
  s.ended.Nodup ∧ (s.trace.filterMap Incident.final?).Nodup ∧
    ∀ p ∈ s.ended, (∀ o ∈ s.pending, o.pair ≠ p) ∧
      ∀ fr ∈ s.inflight.toList, ∀ o ∈ fr.unclaimed fr.orders, o.pair ≠ p

instance (s : State) : Decidable s.EndsOnce := by
  unfold State.EndsOnce
  infer_instance

section Conditions

variable {G : Incident → Prop} [DecidablePred G]

instance (s : State) : Decidable (Lasting G s) :=
  decidable_of_iff (s.seals.Nodup ∧ s.placed.Nodup ∧ ∀ i ∈ s.trace, G i)
    ⟨fun ⟨hseals, hplaced, htrace⟩ ↦ ⟨hseals, hplaced, htrace⟩, fun h ↦
      ⟨h.seals, h.placed, h.trace⟩⟩

instance (x y : Holding) : Decidable (x.Shares y) := by
  unfold Holding.Shares
  infer_instance

instance (v : View) (z : Holding) : Decidable (v.Alone z) := by
  unfold View.Alone
  infer_instance

instance : DecidablePred FinalizedAlone := fun i ↦ by
  cases i <;> unfold FinalizedAlone <;> infer_instance

instance (v : View) (z : Holding) : Decidable (v.ClaimsOnly z) :=
  decidable_of_iff (∀ x ∈ v.flight.toList, ∀ k ∈ x.keys, x.claimed k = some z.rid →
    ∀ y ∈ v.released, y.ref ≠ z.ref → y.sighted = true → k ∉ y.keys) (by
      simp only [View.ClaimsOnly, Option.mem_toList])

instance : DecidablePred NoDoubleQueue := fun i ↦ by
  cases i <;> unfold NoDoubleQueue <;> infer_instance

instance (v : View) (book : List Pair) : Decidable (v.BookClear book) := by
  unfold View.BookClear
  infer_instance

instance : DecidablePred SettlesOnce := fun i ↦ by
  cases i <;> unfold SettlesOnce <;> infer_instance

end Conditions

/-! ### From custody back to the state -/

section Runs

variable {s : State} {c : Custody} {k : OKey}

theorem Tracks.mem_queue (ht : Tracks s c) : k ∈ c.queue ↔ ∃ o ∈ s.pending, o.key = k := by
  rw [show c.queue = s.pending.map Order.key from congrArg View.queue ht.view, List.mem_map]

theorem Tracks.mem_retry (ht : Tracks s c) : k ∈ c.retry ↔ ∃ o ∈ s.carryRetry, o.key = k := by
  rw [show c.retry = s.carryRetry.map Order.key from congrArg View.retry ht.view, List.mem_map]

theorem Tracks.mem_flight (ht : Tracks s c) {fr : Round} (hfr : fr ∈ s.inflight.toList) :
    c.flight = some (fr.holding false) := by
  rw [show c.flight = s.inflight.map _ from congrArg View.flight ht.view,
    Option.mem_toList.mp hfr]
  rfl

/-- A custody with nothing placed keeps, queues and ends nothing. -/
theorem kept_initial : Custody.initial.Kept where
  claims x hx := by rcases hx with hx | hx <;> cases hx
  done _ hz := by cases hz
  placed _ hp := by cases hp

theorem unique_initial : Custody.initial.Unique where
  queue := List.nodup_nil
  held := Multiset.nodup_zero
  taken := List.nodup_nil
  queue_held _ hk := by cases hk
  flight _ hx := by cases hx
  released _ hz := by cases hz
  sighted _ hz := by cases hz
  claimed _ hx := by cases hx
  owed_nodup := Multiset.nodup_zero
  owed _ hk := by cases hk

theorem tracked_initial : Custody.initial.Tracked where
  finals := List.nodup_nil
  rids := List.nodup_nil
  flight _ hx := by cases hx
  released _ hz := by cases hz
  claims _ hx := by cases hx
  taken _ hk := by cases hk
  fresh h := absurd rfl h

theorem endsOnce_initial : Custody.initial.EndsOnce where
  ended := List.nodup_nil
  active k hk := by cases hk with
    | queue h | held h => cases h
    | due h hsealed => cases h
    | flight x hx h => cases hx
    | released z hz hsighted hdone h => cases hz
  line _ hk := by cases hk
  due := Multiset.nodup_zero
  bare _ hk := by cases hk

/-- What a kept order means for the state, between two steps. -/
theorem Tracks.holds (ht : Tracks s c) (hidle : c.Idle) {p : Pair} (h : c.Accounted p) :
    p ∈ s.ended ∨ s.Holds p := by
  have hretry : ∀ k ∈ c.due, ∃ o ∈ s.carryRetry, o.key = k := fun k hk ↦
    ht.mem_retry.mp (Multiset.mem_coe.mp (hidle.calm.due ▸ hk))
  have hpair : ∀ {o : Order} {k : OKey}, o.key = k → k.pair = p → o.pair = p := fun hkey hp ↦ by
    rw [← hp, ← hkey]
    rfl
  cases h with
  | ended h =>
    have hended : c.ended = s.ended := congrArg View.ended ht.view
    exact Or.inl (hended ▸ h)
  | rested h => exact Or.inr (Or.inr (Or.inr (Or.inr (Or.inr (ht.rested ▸ h)))))
  | bare k hk hbare hp =>
    obtain ⟨o, ho, hkey⟩ := hretry k hk
    exact Or.inr (Or.inr (Or.inr (Or.inr (Or.inl ⟨o, ho, hpair hkey hp⟩))))
  | live k hk hnew hp =>
    right
    cases hk with
    | queue h =>
      obtain ⟨o, ho, hkey⟩ := ht.mem_queue.mp h
      exact Or.inl ⟨o, ho, hpair hkey hp⟩
    | held h =>
      rw [(hidle.calm.idle_eq rfl).1] at h
      cases h
    | flight x hx h =>
      rw [show c.flight = s.inflight.map _ from congrArg View.flight ht.view] at hx
      obtain ⟨fr, hfr, rfl⟩ := Option.map_eq_some_iff.mp hx
      obtain ⟨o, ho, hkey⟩ := List.mem_map.mp h
      exact Or.inr (Or.inl ⟨fr, Option.mem_toList.mpr hfr, o, ho, hpair hkey hp⟩)
    | released z hz hsighted h =>
      rw [show c.released = s.zombies.map _ from congrArg View.released ht.view] at hz
      obtain ⟨r, hr, rfl⟩ := List.mem_map.mp hz
      obtain ⟨o, ho, hkey⟩ := List.mem_map.mp h
      exact Or.inr (Or.inr (Or.inl ⟨r, hr, hsighted, o, ho, hpair hkey hp⟩))
    | due h =>
      obtain ⟨o, ho, hkey⟩ := hretry k h
      exact Or.inr (Or.inr (Or.inr (Or.inl ⟨o, ho, hpair hkey hp⟩)))

end Runs

/-! ### Sample runs -/

/-- A host for runs on fixed inputs: the node accepts everything, the landed markers of all rounds
show at the interactions `landed` picks, and there is nothing else on the chain. -/
def sampleHost (clock : ℕ → Time) (landed : ℕ → Bool) : Host where
  prims := Primitives.toy
  market := 1
  base := 1
  quote := 0
  encMode := false
  zombieWatchSecs := secs 900
  deadConfirmSecs := secs 4
  roundGateSecs := secs 300
  settleHoldSecs := none
  settleHoldSlots := 25
  maxRoundOrders := 150
  refineGas := 1000000000
  orderLifetime := fun _ ↦ secs 3600
  clock := clock
  read := fun n key ↦ match key with
    | .rl _ => some (if landed n then [1, 0, 0, 0] else [])
    | _ => some []
  readFinal := fun _ _ ↦ some none
  finality := fun _ ↦ {}
  advancing := fun _ ↦ true
  submit := fun _ _ ↦ .accepted
  committeeRound := fun _ _ _ ↦ none
  committeeEncrypt := fun _ _ _ ↦ none
  token := fun n ↦ FixedBytes.ofBytes 32 (u32Bytes (UInt32.ofNat n))
  refuses := fun _ ↦ false

/-- A public sell order. -/
def sampleSell (oid : ℕ) : Request :=
  { account := 7, oid, side := .sell, price := 5, qty := 3, seq := UInt64.ofNat oid
    sig := List.replicate 64 0, signedPrice := 5 }

/-- The clock jumps past the round timeout after each build; late, both released rounds land, and
one read of a marker misses. -/
def flickeringHost : Host :=
  sampleHost
    (fun n ↦ secs (if n < 10 then 0 else if n < 15 then 400 else if n < 30 then 500
      else if n < 36 then 900 else if n < 40 then 910 else 920))
    fun n ↦ 36 ≤ n && n ≠ 45

/-- Two rounds that share an order are released; each is sighted and claims the order from the
other. -/
def twoReleases : List Action :=
  [.place (sampleSell 1), .build, .sweep, .place (sampleSell 2), .build, .sweep, .sweep, .sweep,
    .sweep]

/-- A released round that lands late and is finalized on its own. -/
def steadyHost : Host :=
  sampleHost (fun n ↦ secs (if n < 10 then 0 else if n < 18 then 400 else 500)) fun n ↦ 16 ≤ n

def lateLanding : List Action := [.place (sampleSell 1), .build, .sweep, .sweep, .sweep]

/-- A sealed sell order. -/
def sampleSealed (oid : ℕ) (ttl : Time) : Request :=
  { account := 7, oid, side := .sell, price := 5, qty := 5, sealed := true, ttl }

/-- A public buy order that fills part of one sealed order. -/
def sampleBuy : Request :=
  { account := 8, oid := 3, side := .buy, price := 5, qty := 2, seq := 1
    sig := List.replicate 64 0, signedPrice := 5 }

/-- The set entry of a sealed order that was sealed at interaction `n`. -/
def sampleEntry (oid n : ℕ) : Bytes :=
  let H := sampleHost (fun _ ↦ 0) fun _ ↦ false
  let o := (sampleSealed oid 0).order 0
  H.consumedEntry { o with reveal := (orderBytes o).getD [] ++ (H.token n).val }

/-- The round lands, its two sealed remainders cannot be posted at first, and some reads of the last
price fail. -/
def carryHost (fails : ℕ → Bool) : Host :=
  { sampleHost (fun n ↦ secs (if n < 26 then 0 else if n < 35 then 10 else 600)) fun n ↦ 24 ≤ n with
    read := fun n key ↦ match key with
      | .rl _ => some (if 24 ≤ n then [1, 0, 0, 0] else [])
      | .pk _ => some (List.replicate 32 0)
      | .commits _ => some (sampleEntry 1 1 ++ sampleEntry 2 6)
      | .lp _ => if fails n then none else some [5, 0, 0, 0]
      | _ => some []
    submit := fun n _ ↦ if 30 ≤ n ∧ n < 40 then .busy else .accepted }

/-- Two sealed orders and a buy order clear in one round; then the resolver sweeps. -/
def carriedOrders (ttl₁ ttl₂ : Time) : List Action :=
  [.place (sampleSealed 1 ttl₁), .place (sampleSealed 2 ttl₂), .place sampleBuy, .build,
    .sweep, .sweep, .sweep, .sweep]

/-! ### No order is lost -/

/-- No order is lost in a run where every released round is finalized alone. -/
theorem no_order_lost (H : Host) (actions : List Action)
    (h : Lasting FinalizedAlone (run H actions)) :
    (run H actions).LosesNone := by
  obtain ⟨c, ht, hidle, hmoves⟩ := run_reached H actions h
  have hkept : c.Sound ∧ c.Kept := hmoves.keeps (P := fun c ↦ c.Sound ∧ c.Kept)
    (fun _ _ ⟨hs, hk⟩ hmove ↦ ⟨hs.move hmove, hk.move hs hmove⟩) ⟨sound_initial, kept_initial⟩
  intro p hp hended
  exact (ht.holds hidle (hkept.2.placed p (ht.placed ▸ hp))).resolve_left hended

theorem order_lost_between_claims :
    (run flickeringHost twoReleases).seals.Nodup ∧ (run flickeringHost twoReleases).placed.Nodup ∧
      ¬ (run flickeringHost twoReleases).LosesNone := by
  decide +kernel

theorem no_order_lost_lateLanding :
    Lasting FinalizedAlone (run steadyHost lateLanding) ∧
      (run steadyHost lateLanding).trace.filterMap Incident.final? ≠ [] ∧
      (run steadyHost lateLanding).LosesNone := by
  have h : Lasting FinalizedAlone (run steadyHost lateLanding) := by decide +kernel
  exact ⟨h, by decide +kernel, no_order_lost _ _ h⟩

/-! ### No order is queued twice -/

/-- No order is queued twice in a run where no re-posted remainder is left in the carry-retry queue
and no undone landing erases the claim of another landed round. -/
theorem no_order_queued_twice (H : Host) (actions : List Action)
    (h : Lasting NoDoubleQueue (run H actions)) :
    (run H actions).QueuesOnce := by
  obtain ⟨c, ht, hidle, hmoves⟩ := run_reached H actions h
  have hunique : c.Sound ∧ c.Unique := hmoves.keeps (P := fun c ↦ c.Sound ∧ c.Unique)
    (fun _ _ ⟨hs, hu⟩ hmove ↦ ⟨hs.move hmove, hu.move hs hmove⟩) ⟨sound_initial, unique_initial⟩
  obtain ⟨-, hu⟩ := hunique
  have hqueue : c.queue = (run H actions).pending.map Order.key := congrArg View.queue ht.view
  refine ⟨hqueue ▸ hu.queue, fun fr hfr o ho ↦ ?_, fun z hz hsighted k hk ↦ ?_⟩
  · have hkey : o.key ∈ fr.keys := List.mem_map_of_mem (List.mem_of_mem_filter ho)
    exact hqueue ▸ (hu.flight _ (ht.mem_flight hfr)).2 o.key hkey
  · exact hqueue ▸ (hu.sighted _ (ht.mem_released hz) hsighted k hk).1

theorem remainder_queued_twice :
    (run (carryHost fun n ↦ n = 42) (carriedOrders 0 (secs 500))).seals.Nodup ∧
      (run (carryHost fun n ↦ n = 42) (carriedOrders 0 (secs 500))).placed.Nodup ∧
      ¬ (run (carryHost fun n ↦ n = 42) (carriedOrders 0 (secs 500))).QueuesOnce := by
  decide +kernel

theorem no_order_queued_twice_carriedOrders :
    Lasting NoDoubleQueue (run (carryHost fun _ ↦ false) (carriedOrders 0 (secs 500))) ∧
      (run (carryHost fun _ ↦ false) (carriedOrders 0 (secs 500))).pending ≠ [] ∧
      (run (carryHost fun _ ↦ false) (carriedOrders 0 (secs 500))).QueuesOnce := by
  have h : Lasting NoDoubleQueue (run (carryHost fun _ ↦ false) (carriedOrders 0 (secs 500))) := by
    decide +kernel
  exact ⟨h, by decide +kernel, no_order_queued_twice _ _ h⟩

/-! ### No order ends twice -/

/-- No order ends twice in a run where every decision meets `SettlesOnce`. -/
theorem orders_end_once (H : Host) (actions : List Action)
    (h : Lasting SettlesOnce (run H actions)) : (run H actions).EndsOnce := by
  obtain ⟨c, ht, hidle, hmoves⟩ := run_reached H actions h
  have hends : c.Sound ∧ c.Unique ∧ c.Tracked ∧ c.EndsOnce := hmoves.keeps
    (P := fun c ↦ c.Sound ∧ c.Unique ∧ c.Tracked ∧ c.EndsOnce)
    (fun _ _ ⟨hs, hu, htr, he⟩ hmove ↦ ⟨hs.move hmove,
      hu.move hs (hmove.mono fun _ hi ↦ hi.noDoubleQueue), htr.move hs hmove,
      he.move hs hu htr hmove⟩)
    ⟨sound_initial, unique_initial, tracked_initial, endsOnce_initial⟩
  obtain ⟨-, -, htracked, hends⟩ := hends
  have hended : c.ended = (run H actions).ended := congrArg View.ended ht.view
  have hfinals : c.finals = (run H actions).trace.filterMap Incident.final? :=
    congrArg View.finals ht.view
  refine ⟨hended ▸ hends.ended, hfinals ▸ htracked.finals, fun p hp ↦ ?_⟩
  have hover : ∀ o : Order, o.pair = p → ¬ o.key.pair ∉ c.ended := fun o heq hnot ↦
    hnot (hended ▸ (show o.key.pair = p from heq) ▸ hp)
  refine ⟨fun o ho heq ↦ ?_, ?_⟩
  · have hkey : o.key ∈ c.queue := ht.mem_queue.mpr ⟨o, ho, rfl⟩
    exact hover o heq (hends.active o.key (.queue hkey)).2
  · intro fr hfr o ho heq
    have hkey : o.key ∈ (fr.holding false).unclaimed := by
      obtain ⟨hmem, hfree⟩ := List.mem_filter.mp ho
      exact Custody.mem_unclaimed.mpr ⟨List.mem_map_of_mem hmem, of_decide_eq_true hfree⟩
    exact hover o heq (hends.active o.key (.flight _ (ht.mem_flight hfr) hkey)).2

theorem remainder_ends_twice :
    (∀ rid, ∀ n m, n ≤ m → (carryHost fun n ↦ n = 42).read n (.rl rid) = some [1, 0, 0, 0] →
        (carryHost fun n ↦ n = 42).read m (.rl rid) = some [1, 0, 0, 0]) ∧
      (run (carryHost fun n ↦ n = 42) (carriedOrders (secs 500) (secs 500))).refs = 1 ∧
      (run (carryHost fun n ↦ n = 42) (carriedOrders (secs 500) (secs 500))).seals.Nodup ∧
      (run (carryHost fun n ↦ n = 42) (carriedOrders (secs 500) (secs 500))).placed.Nodup ∧
      ¬ (run (carryHost fun n ↦ n = 42) (carriedOrders (secs 500) (secs 500))).EndsOnce := by
  refine ⟨fun rid n m hle hlanded ↦ ?_, by decide +kernel⟩
  have hn : 24 ≤ n := by
    by_contra hlt
    simp [carryHost, hlt] at hlanded
  simp [carryHost, hn.trans hle]

theorem orders_end_once_carriedOrders :
    Lasting SettlesOnce (run (carryHost fun _ ↦ false) (carriedOrders (secs 500) (secs 500))) ∧
      (run (carryHost fun _ ↦ false) (carriedOrders (secs 500) (secs 500))).ended ≠ [] ∧
      (run (carryHost fun _ ↦ false) (carriedOrders (secs 500) (secs 500))).EndsOnce := by
  have h : Lasting SettlesOnce
      (run (carryHost fun _ ↦ false) (carriedOrders (secs 500) (secs 500))) := by
    decide +kernel
  exact ⟨h, by decide +kernel, orders_end_once _ _ h⟩

end Jamswap.Builder
