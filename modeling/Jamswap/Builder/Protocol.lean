import Jamswap.Builder.State
import Mathlib.Data.Multiset.Filter
import Mathlib.Data.Multiset.AddSub
import Mathlib.Logic.Relation

/-!
# The custody protocol

What the builder is for, without its programs: orders, named by their keys, move between the
mempool, a build's hands, the round in flight, the released rounds and the carry-retry queue. A
`Custody` is who holds what at one moment, a `Move` one transfer. Every read the programs make is
gone: a move may happen whenever custody allows it.

The moves are indexed by a condition `G` on the decisions of the builder, so that one account of the
programs (`Jamswap.Builder.Simulation`) serves every result that needs its own condition.
-/

namespace Jamswap.Builder

open Library Engine

/-! ### Claims -/

/-- Note on `x` that the landed round `z` holds the orders they share. -/
def Holding.noteClaim (z x : Holding) : Holding :=
  { x with claimed := fun k ↦ if k ∈ x.keys ∧ k ∈ z.keys then some z.rid else x.claimed k }

/-- Forget on `x` what the round `z` had claimed. -/
def Holding.dropClaim (z x : Holding) : Holding :=
  { x with claimed := fun k ↦ if x.claimed k = some z.rid then none else x.claimed k }

/-- Change one record, and every other one another way. -/
def Holding.split (z : Holding) (own other : Holding → Holding) (x : Holding) : Holding :=
  if x.ref = z.ref then own x else other x

/-- The record with its sighting set. -/
def Holding.setSighted (sighted : Bool) (x : Holding) : Holding := { x with sighted }

section Split

variable (z x : Holding) (sighted : Bool)

/-- Changing claims and sightings leaves a record's number, id and orders alone. -/
structure Holding.SameRound (y x : Holding) : Prop where
  ref : y.ref = x.ref
  rid : y.rid = x.rid
  keys : y.keys = x.keys

theorem Holding.sameRound_note : Holding.SameRound (z.split id z.noteClaim x) x := by
  unfold Holding.split
  split <;> exact ⟨rfl, rfl, rfl⟩

theorem Holding.sameRound_drop : Holding.SameRound (z.split id z.dropClaim x) x := by
  unfold Holding.split
  split <;> exact ⟨rfl, rfl, rfl⟩

theorem Holding.sameRound_sight :
    Holding.SameRound (z.split (Holding.setSighted sighted) z.noteClaim x) x := by
  unfold Holding.split
  split <;> exact ⟨rfl, rfl, rfl⟩

theorem Holding.sameRound_unsight :
    Holding.SameRound (z.split (Holding.setSighted sighted) z.dropClaim x) x := by
  unfold Holding.split
  split <;> exact ⟨rfl, rfl, rfl⟩

end Split

/-! ### Custody -/

/-- Who holds which order, with the accounts that results are stated in. -/
structure Custody extends View where
  /-- what is in a build's hands -/
  held : Multiset OKey := 0
  /-- the keys the build ended -/
  spent : List OKey := []
  /-- released rounds first seen landed since the build took its orders -/
  fresh : List ℕ := []
  /-- released rounds finalized in the pass under way -/
  done : List ℕ := []
  /-- the remainders the carry-retry queue owes; without a commitment while not sealed yet -/
  due : Multiset OKey := 0
  /-- remainders the drain under way has re-posted -/
  reposted : Multiset OKey := 0
  /-- remainders it has ended -/
  lapsed : Multiset OKey := 0
  placed : List Pair := []
  rested : List Pair := []
  /-- every key an order has had -/
  seen : List OKey := []
  /-- records made so far -/
  refs : ℕ := 0

/-- What finalizing a round hands out. -/
structure Settlement where
  ended : List Pair
  rested : List Pair
  /-- remainders sealed again and queued -/
  queued : List OKey
  /-- remainders that could not be posted -/
  retried : List OKey

/-- The new keys of a settlement. -/
def Settlement.minted (b : Settlement) : List OKey :=
  (b.queued ++ b.retried).filter fun k ↦ k.commit ≠ none

/-- A round that owns `owned` and ends `book` hands out exactly one fate for each order: finished,
left resting, or carried under a new key. -/
def Settlement.Accounts (b : Settlement) (owned : List OKey) (book : List Pair) : Prop :=
  ∃ finished left carried : List OKey, (finished ++ left ++ carried).Perm owned ∧
    b.ended.Perm (finished.map OKey.pair ++ book) ∧ (∀ k ∈ left, k.pair ∈ b.rested) ∧
    ((b.queued ++ b.retried).map OKey.pair).Perm (carried.map OKey.pair)

namespace Custody

/-- Put orders a build holds, or took, back at the front of the mempool. -/
def giveBack (c : Custody) (back : List OKey) (held : Multiset OKey) : Custody :=
  { c with queue := back ++ c.queue, held }

/-- The build is over. -/
def finish (c : Custody) : Custody := { c with held := 0, taken := [], spent := [] }

/-- What a build holds goes into flight as `x`, which replaces a released round with its id. -/
def register (c : Custody) (x : Holding) : Custody :=
  { c.finish with
    flight := some x
    released := c.released.filter fun z ↦ z.rid ≠ x.rid ∨ z.sighted = true
    refs := c.refs + 1 }

/-- The round in flight is released under a new record. -/
def release (c : Custody) (x : Holding) : Custody :=
  { c with
    flight := none
    queue := x.unclaimed ++ c.queue
    released := c.released ++ [{ x with ref := c.refs, sighted := false }]
    refs := c.refs + 1 }

/-- The released round `z` is seen landed: it claims its orders. -/
def sight (c : Custody) (z : Holding) : Custody :=
  { c with
    queue := c.queue.filter fun k ↦ k ∉ z.keys
    held := c.held.filter fun k ↦ k ∉ z.keys
    flight := c.flight.map (z.split id z.noteClaim)
    released := c.released.map (z.split (Holding.setSighted true) z.noteClaim)
    fresh := z.ref :: c.fresh }

/-- The keys that someone else than the released round `z` holds. -/
def busy (c : Custody) (z : Holding) : List OKey :=
  (c.flight.toList.filter (fun x ↦ x.ref ≠ z.ref) ++
    c.released.filter fun x ↦ x.ref ≠ z.ref ∧ x.sighted = true).flatMap Holding.keys ++ c.queue

/-- The landing of `z` is undone: it gives its orders back. -/
def unsight (c : Custody) (z : Holding) : Custody :=
  { c with
    queue := (z.keys.filter fun k ↦ k ∉ c.busy z) ++ c.queue
    flight := c.flight.map (z.split id z.dropClaim)
    released := c.released.map (z.split (Holding.setSighted false) z.dropClaim) }

/-- The round `x` hands out its settlement. -/
def settle (c : Custody) (x : Holding) (b : Settlement) : Custody :=
  { c with
    queue := c.queue ++ b.queued
    retry := c.retry ++ b.retried
    due := c.due + b.retried
    ended := b.ended ++ c.ended
    rested := b.rested ++ c.rested
    seen := b.minted ++ c.seen
    receipts := x.unclaimed ++ c.receipts
    finals := x.rid :: c.finals }

/-- The settlement is one the round may hand out now. -/
structure MaySettle (c : Custody) (x : Holding) (book : List Pair) (b : Settlement) : Prop where
  accounts : b.Accounts x.unclaimed book
  sealed : ∀ k ∈ b.queued, k.commit ≠ none
  nodup : b.minted.Nodup
  minted : ∀ k ∈ b.minted, k ∉ c.seen
  due : c.due = c.retry

/-- A sighted released round whose turn it is. -/
structure InTurn (c : Custody) (z : Holding) : Prop where
  mem : z ∈ c.released
  sighted : z.sighted = true
  pending : z.ref ∉ c.done
  settled : c.taken = [] ∨ z.ref ∉ c.fresh

end Custody

/-! ### Moves -/

/-- One transfer of custody, where every decision meets `G`. -/
inductive Move (G : Incident → Prop) : Custody → Custody → Prop
  | place {c : Custody} (k : OKey) (htaken : c.taken = []) (hnew : k.pair ∉ c.placed)
      (hG : G (.placed k c.toView)) :
      Move G c { c with
        queue := c.queue ++ [k], placed := k.pair :: c.placed, seen := k :: c.seen }
  | cancel {c : Custody} (p : Pair) (htaken : c.taken = []) :
      Move G c { c with
        queue := c.queue.filter fun k ↦ k.pair ≠ p
        ended := (c.queue.filter fun k ↦ k.pair = p).map OKey.pair ++ c.ended }
  | take {c : Custody} (queue taken : List OKey) (held : Multiset OKey) (hflight : c.flight = none)
      (hheld : c.held = 0) (htaken : c.taken = []) (hqueue : queue.Sublist c.queue)
      (hsub : taken.Sublist c.queue) (hle : held ≤ taken) (hall : ∀ k ∈ taken, k ∈ held)
      (hcover : ∀ k ∈ c.queue, k ∈ queue ∨ k ∈ held)
      (hapart : c.queue.Nodup → ∀ k ∈ queue, k ∉ taken) :
      Move G c { c with queue, taken, held, spent := [], fresh := [] }
  /-- the build ends an order it took -/
  | endHeld {c : Custody} (k : OKey) (hk : k ∈ c.held) :
      Move G c { c with
        held := c.held.erase k, ended := k.pair :: c.ended, spent := k :: c.spent }
  | giveBack {c : Custody} (back : List OKey) (held : Multiset OKey) (h : c.held = back + held) :
      Move G c (c.giveBack back held)
  /-- the build failed: what it took goes back, unless it was ended, claimed or is queued -/
  | requeue {c : Custody} (back : List OKey) (hback : back.Sublist c.taken)
      (hfree : ∀ k ∈ back, k ∉ c.spent ∧ k ∉ c.queue ∧
        ∀ z ∈ c.released, z.sighted = true → k ∉ z.keys)
      (hcover : ∀ k ∈ c.taken, k ∈ back ∨ k ∈ c.spent ∨ k ∈ c.queue ∨
        ∃ z ∈ c.released, z.sighted = true ∧ k ∈ z.keys) :
      Move G c (c.giveBack back 0).finish
  | finish {c : Custody} (hheld : c.held = 0) : Move G c c.finish
  | register {c : Custody} (x : Holding) (hflight : c.flight = none) (hkeys : c.held = x.keys)
      (hclaimed : ∀ k, x.claimed k = none) (href : x.ref = c.refs)
      (hG : G (.submitted x c.toView)) : Move G c (c.register x)
  /-- a record number is used up -/
  | skip {c : Custody} : Move G c { c with refs := c.refs + 1 }
  | release {c : Custody} (x : Holding) (hflight : c.flight = some x) : Move G c (c.release x)
  /-- unsighted released rounds are no longer watched -/
  | forget {c : Custody} (released : List Holding) (hsub : released.Sublist c.released)
      (hdrop : ∀ z ∈ c.released, z ∈ released ∨ z.sighted = false) :
      Move G c { c with released }
  | sight {c : Custody} (z : Holding) (hz : z ∈ c.released) (hsighted : z.sighted = false)
      (hG : G (.sighted z c.toView)) : Move G c (c.sight z)
  | unsight {c : Custody} (z : Holding) (hturn : c.InTurn z) (hG : G (.reverted z c.toView)) :
      Move G c (c.unsight z)
  | settleReleased {c : Custody} (z : Holding) (book : List Pair) (b : Settlement)
      (hturn : c.InTurn z) (hG : G (.finalized z book c.toView)) (hb : c.MaySettle z book b) :
      Move G c { c.settle z b with done := z.ref :: c.done }
  | settleFlight {c : Custody} (x : Holding) (book : List Pair) (b : Settlement)
      (hflight : c.flight = some x) (hG : G (.settled x book c.toView))
      (hb : c.MaySettle x book b) : Move G c { c.settle x b with flight := none }
  /-- a pass is over: the rounds it finalized are dropped, and unsighted ones may be -/
  | closePass {c : Custody} (released : List Holding) (hsub : released.Sublist c.released)
      (hdrop : ∀ z ∈ c.released, z ∈ released ∨ z.sighted = false ∨ z.ref ∈ c.done)
      (hkeep : ∀ z ∈ released, z.ref ∉ c.done) :
      Move G c { c with released, done := [] }
  /-- a pass stops half-way: the rounds it finalized are still tracked -/
  | abortPass {c : Custody} (dropped : List Holding)
      (hdone : ∀ r ∈ c.done, ∃ z ∈ dropped, z.sighted = true ∧ z.ref = r)
      (hG : G (.passAborted dropped)) : Move G c { c with done := [] }
  /-- a remainder is sealed at last -/
  | reseal {c : Custody} (k k' : OKey) (htaken : c.taken = []) (hk : k ∈ c.due)
      (hbare : k.commit = none) (hpair : k'.pair = k.pair) (hsealed : k'.commit ≠ none)
      (hnew : k' ∉ c.seen) :
      Move G c { c with due := k' ::ₘ c.due.erase k, seen := k' :: c.seen }
  | repost {c : Custody} (k : OKey) (htaken : c.taken = []) (hk : k ∈ c.due)
      (hsealed : k.commit ≠ none) :
      Move G c { c with
        due := c.due.erase k, queue := c.queue ++ [k], reposted := k ::ₘ c.reposted }
  | lapse {c : Custody} (k : OKey) (htaken : c.taken = []) (hk : k ∈ c.due) :
      Move G c { c with
        due := c.due.erase k, ended := k.pair :: c.ended, lapsed := k ::ₘ c.lapsed }
  | closeDrain {c : Custody} (retry : List OKey) (hdue : c.due = retry) :
      Move G c { c with retry, reposted := 0, lapsed := 0 }
  /-- a drain stops half-way: the queue still lists what it re-posted and ended -/
  | abortDrain {c : Custody} (retry reposted lapsed : List OKey) (hrepost : c.reposted = reposted)
      (hlapse : c.lapsed = lapsed) (hretry : (retry : Multiset OKey) = c.due + reposted + lapsed)
      (hG : G (.drainAborted reposted lapsed)) :
      Move G c { c with retry, due := retry, reposted := 0, lapsed := 0 }

variable {G : Incident → Prop} {c c' : Custody} {k : OKey} {own other : Holding → Holding}
  {book : List Pair} {b : Settlement}

/-- A weaker condition allows more moves. -/
theorem Move.mono {G' : Incident → Prop} (hG' : ∀ i, G i → G' i) (h : Move G c c') :
    Move G' c c' := by
  cases h with
  | place k htaken hnew hG => exact .place k htaken hnew (hG' _ hG)
  | register x hflight hkeys hclaimed href hG =>
    exact .register x hflight hkeys hclaimed href (hG' _ hG)
  | sight z hz hsighted hG => exact .sight z hz hsighted (hG' _ hG)
  | unsight z hturn hG => exact .unsight z hturn (hG' _ hG)
  | settleReleased z book b hturn hG hb => exact .settleReleased z book b hturn (hG' _ hG) hb
  | settleFlight x book b hflight hG hb => exact .settleFlight x book b hflight (hG' _ hG) hb
  | abortPass dropped hdone hG => exact .abortPass dropped hdone (hG' _ hG)
  | abortDrain retry reposted lapsed hrepost hlapse hretry hG =>
    exact .abortDrain retry reposted lapsed hrepost hlapse hretry (hG' _ hG)
  | _ => constructor <;> assumption

/-- Any number of moves. -/
abbrev Moves (G : Incident → Prop) : Custody → Custody → Prop := Relation.ReflTransGen (Move G)

/-- What every move keeps, any number of moves keep. -/
theorem Moves.keeps {P : Custody → Prop} (hstep : ∀ c c', P c → Move G c c' → P c')
    (h : Moves G c c') (hc : P c) : P c' := by
  induction h with
  | refl => exact hc
  | tail _ hmove ih => exact hstep _ _ ih hmove

/-! ### Well-formed custody -/

variable {x z y : Holding}

namespace Custody

/-- The keys of orders somewhere in the builder, or settled by it. -/
@[grind]
inductive Known (c : Custody) (k : OKey) : Prop
  | queue (h : k ∈ c.queue)
  | held (h : k ∈ c.held)
  | taken (h : k ∈ c.taken)
  | flight (x : Holding) (hx : c.flight = some x) (h : k ∈ x.keys)
  | released (z : Holding) (hz : z ∈ c.released) (h : k ∈ z.keys)
  | due (h : k ∈ c.due) (hsealed : k.commit ≠ none)
  | reposted (h : k ∈ c.reposted)
  | lapsed (h : k ∈ c.lapsed) (hsealed : k.commit ≠ none)
  | receipts (h : k ∈ c.receipts)

/-- Records have numbers of their own, keys have been seen, and a build runs with nothing in
flight. -/
structure Sound (c : Custody) : Prop where
  refs_nodup : (c.released.map Holding.ref).Nodup
  refs_lt : ∀ z ∈ c.released, z.ref < c.refs
  flight_ref : ∀ x, c.flight = some x → x.ref < c.refs ∧ ∀ z ∈ c.released, z.ref ≠ x.ref
  known_seen : ∀ k, c.Known k → k ∈ c.seen
  seen_placed : ∀ k ∈ c.seen, k.pair ∈ c.placed
  due_placed : ∀ k, k ∈ c.due ∨ k ∈ c.lapsed → k.pair ∈ c.placed
  spent_ended : ∀ k ∈ c.spent, k.pair ∈ c.ended
  held_taken : ∀ k ∈ c.held, k ∈ c.taken
  build_alone : c.taken ≠ [] → c.flight = none
  done_sighted : ∀ r ∈ c.done, ∃ z ∈ c.released, z.ref = r ∧ z.sighted = true

variable {G : Incident → Prop} {c c' : Custody}

theorem mem_unclaimed : k ∈ x.unclaimed ↔ k ∈ x.keys ∧ x.claimed k = none := by
  simp [Holding.unclaimed]

theorem split_of_eq (h : x.ref = z.ref) : z.split own other x = own x := if_pos h

theorem split_of_ne (h : x.ref ≠ z.ref) : z.split own other x = other x := if_neg h

/-- A sighting does not take another one back. -/
theorem sighted_of_sight (h : x.sighted = true) :
    (z.split (Holding.setSighted true) z.noteClaim x).sighted = true := by
  unfold Holding.split
  split
  · rfl
  · exact h

/-- The sighted rounds and the one that lands are sighted after it. -/
theorem exists_sighted_sight (hy : y ∈ c.released) (h : y.sighted = true ∨ y = z) :
    ∃ y' ∈ (c.sight z).released, y'.sighted = true ∧ y'.SameRound y := by
  refine ⟨_, List.mem_map_of_mem hy, ?_, z.sameRound_sight y true⟩
  rcases h with h | rfl
  · exact sighted_of_sight h
  · rw [split_of_eq rfl]
    rfl

/-- The sighted rounds but the one whose landing is undone stay sighted. -/
theorem exists_sighted_unsight (hy : y ∈ c.released) (h : y.sighted = true) (hne : y.ref ≠ z.ref) :
    ∃ y' ∈ (c.unsight z).released, y'.sighted = true ∧ y'.SameRound y := by
  refine ⟨_, List.mem_map_of_mem hy, ?_, z.sameRound_unsight y false⟩
  rw [split_of_ne hne]
  exact h

/-- A released round is known by its number. -/
theorem Sound.eq_of_ref (h : c.Sound) (hy : y ∈ c.released) (hz : z ∈ c.released)
    (href : y.ref = z.ref) : y = z :=
  List.inj_on_of_nodup_map h.refs_nodup hy hz href

/-- Changing records in place, with their numbers and orders, keeps the numbers apart and brings no
new key. -/
theorem Sound.mapRecords (h : c.Sound) {f g : Holding → Holding}
    (hf : ∀ x, (f x).SameRound x) (hg : ∀ x, (g x).SameRound x)
    (hsighted : ∀ x ∈ c.released, x.ref ∈ c.done → x.sighted = true → (g x).sighted = true) :
    Sound { c with flight := c.flight.map f, released := c.released.map g } :=
  { h with
    refs_nodup := by
      have hsame : (c.released.map g).map Holding.ref = c.released.map Holding.ref := by
        rw [List.map_map]
        exact List.map_congr_left fun x _ ↦ (hg x).ref
      exact hsame ▸ h.refs_nodup
    refs_lt := by
      intro z hz
      obtain ⟨x, hx, rfl⟩ := List.mem_map.mp hz
      rw [(hg x).ref]
      exact h.refs_lt x hx
    flight_ref := by
      intro y hy
      obtain ⟨x, hx, rfl⟩ := Option.map_eq_some_iff.mp hy
      rw [(hf x).ref]
      refine ⟨(h.flight_ref x hx).1, fun z hz ↦ ?_⟩
      obtain ⟨w, hw, rfl⟩ := List.mem_map.mp hz
      rw [(hg w).ref]
      exact (h.flight_ref x hx).2 w hw
    known_seen := by
      intro k hk
      apply h.known_seen
      cases hk with
      | flight y hy hmem =>
        obtain ⟨x, hx, rfl⟩ := Option.map_eq_some_iff.mp hy
        exact .flight x hx ((hf x).keys ▸ hmem)
      | released z hz hmem =>
        obtain ⟨x, hx, rfl⟩ := List.mem_map.mp hz
        exact .released x hx ((hg x).keys ▸ hmem)
      | _ => grind
    build_alone := by
      intro htaken
      simp [h.build_alone htaken]
    done_sighted := by
      intro r hr
      obtain ⟨z, hz, rfl, hz'⟩ := h.done_sighted r hr
      exact ⟨g z, List.mem_map_of_mem hz, (hg z).ref, hsighted z hz hr hz'⟩ }

theorem mem_minted {b : Settlement} {k : OKey} :
    k ∈ b.minted ↔ (k ∈ b.queued ∨ k ∈ b.retried) ∧ k.commit ≠ none := by
  rw [Settlement.minted, List.mem_filter, List.mem_append, decide_eq_true_iff]

/-- Every fate a settlement hands out is for an order the round owned. -/
theorem MaySettle.pair_placed (h : c.Sound) (hb : c.MaySettle x book b)
    (hx : ∀ k ∈ x.keys, c.Known k) (hk : k ∈ b.queued ++ b.retried) : k.pair ∈ c.placed := by
  obtain ⟨finished, left, carried, hfates, -, -, hcarried⟩ := hb.accounts
  have hpair : k.pair ∈ carried.map OKey.pair := hcarried.subset (List.mem_map_of_mem hk)
  obtain ⟨k', hk', heq⟩ := List.mem_map.mp hpair
  have howned : k' ∈ x.unclaimed := hfates.subset (List.mem_append_right _ hk')
  rw [← heq]
  exact h.seen_placed k' (h.known_seen k' (hx k' (mem_unclaimed.mp howned).1))

/-- Handing out a settlement keeps custody well-formed. -/
theorem Sound.settle (h : c.Sound) (hb : c.MaySettle x book b) (hx : ∀ k ∈ x.keys, c.Known k) :
    (c.settle x b).Sound := by
  have hpairs := fun k ↦ hb.pair_placed h hx (k := k)
  have howned : ∀ k ∈ x.unclaimed, c.Known k := fun k hk ↦ hx k (mem_unclaimed.mp hk).1
  refine { h with
    known_seen := fun k hk ↦ ?_
    seen_placed := fun k hk ↦ ?_
    due_placed := fun k hk ↦ ?_
    spent_ended := fun k hk ↦ List.mem_append_right _ (h.spent_ended k hk) }
  · have hsealed := hb.sealed
    have hold := h.known_seen k
    have hminted := @mem_minted b k
    cases hk <;> simp only [Custody.settle, Multiset.mem_add, Multiset.mem_coe] at * <;> grind
  · rcases List.mem_append.mp hk with hk | hk
    · exact hpairs k (List.mem_append.mpr (mem_minted.mp hk).1)
    · exact h.seen_placed k hk
  · rcases hk with hk | hk
    · rcases Multiset.mem_add.mp hk with hk | hk
      · exact h.due_placed k (Or.inl hk)
      · exact hpairs k (List.mem_append_right _ hk)
    · exact h.due_placed k (Or.inr hk)

/-- Dropping released rounds keeps custody well-formed, as long as the finalized ones stay. -/
theorem Sound.drop (h : c.Sound) {released : List Holding} {done : List ℕ}
    (hsub : released.Sublist c.released)
    (hdone : ∀ r ∈ done, ∃ z ∈ released, z.ref = r ∧ z.sighted = true) :
    Sound { c with released, done } := by
  have hmem : ∀ z ∈ released, z ∈ c.released := fun z hz ↦ hsub.subset hz
  have hknown := h.known_seen
  refine { h with
    refs_nodup := h.refs_nodup.sublist (hsub.map _)
    refs_lt := fun z hz ↦ h.refs_lt z (hmem z hz)
    flight_ref := fun x hx ↦ ⟨(h.flight_ref x hx).1,
      fun z hz ↦ (h.flight_ref x hx).2 z (hmem z hz)⟩
    known_seen := fun k hk ↦ ?_
    done_sighted := hdone }
  grind

/-- So does giving back keys that have been seen. -/
theorem Sound.giveBack (h : c.Sound) {back : List OKey} {held : Multiset OKey}
    (hback : ∀ k ∈ back, k ∈ c.seen) (hlow : ∀ k ∈ held, k ∈ c.held) :
    (c.giveBack back held).Sound := by
  have hknown := h.known_seen
  refine { h with
    known_seen := fun k hk ↦ ?_, held_taken := fun k hk ↦ h.held_taken k (hlow k hk) }
  show k ∈ c.seen
  simp only [Custody.giveBack] at hk
  grind

theorem Sound.finish (h : c.Sound) : c.finish.Sound := by
  have hknown := h.known_seen
  refine { h with
    known_seen := fun k hk ↦ ?_
    spent_ended := fun _ hk ↦ (by cases hk)
    held_taken := fun _ hk ↦ (by cases hk)
    build_alone := fun hne ↦ absurd rfl hne }
  show k ∈ c.seen
  simp only [Custody.finish] at hk
  grind

/-- Every move keeps custody well-formed. -/
theorem Sound.move (h : c.Sound) (hmove : Move G c c') : c'.Sound := by
  have hknown := h.known_seen
  have hplaced := h.seen_placed
  cases hmove with
  | place k htaken hnew hG =>
    refine { h with known_seen := fun k' hk' ↦ ?_, seen_placed := ?_, due_placed := ?_ }
    · grind
    · grind
    · exact fun k' hk' ↦ List.mem_cons_of_mem _ (h.due_placed k' hk')
  | cancel p htaken =>
    refine { h with known_seen := fun k' hk' ↦ ?_, spent_ended := fun k hk ↦ ?_ }
    · grind
    · exact List.mem_append_right _ (h.spent_ended k hk)
  | take queue taken held hflight hheld htaken hqueue hsub hle hall hcover hapart =>
    have hmem : ∀ k ∈ taken, k ∈ c.queue := fun k hk ↦ hsub.subset hk
    have hmem' : ∀ k ∈ queue, k ∈ c.queue := fun k hk ↦ hqueue.subset hk
    have hlow : ∀ k ∈ held, k ∈ taken := fun k hk ↦ Multiset.mem_coe.mp (Multiset.mem_of_le hle hk)
    refine { h with
      known_seen := fun k' hk' ↦ ?_, spent_ended := by simp, held_taken := hlow
      build_alone := fun _ ↦ hflight }
    grind
  | endHeld k hk =>
    have hlow : ∀ k' ∈ c.held.erase k, k' ∈ c.held := fun k' hk' ↦ Multiset.mem_of_mem_erase hk'
    refine { h with
      known_seen := fun k' hk' ↦ ?_, spent_ended := fun k' hk' ↦ ?_
      held_taken := fun k' hk' ↦ h.held_taken k' (hlow k' hk') }
    · grind
    · have := h.spent_ended
      grind
  | giveBack back held hsplit =>
    exact h.giveBack (fun k hk ↦ hknown k (.held (by simp [hsplit, hk]))) fun k hk ↦ by
      simp [hsplit, hk]
  | requeue back hback hfree hcover =>
    have hgiven := h.giveBack (fun k hk ↦ hknown k (.taken (hback.subset hk)))
      fun _ hk ↦ absurd hk (Multiset.notMem_zero _)
    exact hgiven.finish
  | finish hheld => exact h.finish
  | register x hflight hkeys hclaimed href hG =>
    have hrefs := h.refs_lt
    have hmem : ∀ k ∈ x.keys, k ∈ c.held := fun k hk ↦ by simp [hkeys, hk]
    refine { h.finish with
      refs_nodup := h.refs_nodup.sublist (List.filter_sublist.map _)
      refs_lt := fun z hz ↦ ?_
      flight_ref := fun y hy ↦ ?_
      known_seen := fun k' hk' ↦ ?_
      build_alone := fun hne ↦ absurd rfl hne
      done_sighted := fun r hr ↦ ?_ }
    · exact Nat.lt_succ_of_lt (hrefs z (List.mem_of_mem_filter hz))
    · obtain rfl : x = y := Option.some.inj hy
      refine ⟨href ▸ Nat.lt_succ_self _, fun z hz ↦ ?_⟩
      exact href ▸ (hrefs z (List.mem_of_mem_filter hz)).ne
    · show k' ∈ c.seen
      simp only [Custody.register, Custody.finish] at hk'
      grind
    · obtain ⟨z, hz, href', hz'⟩ := h.done_sighted r hr
      exact ⟨z, List.mem_filter.mpr ⟨hz, by simp [hz']⟩, href', hz'⟩
  | skip =>
    exact { h with
      known_seen := fun k hk ↦ hknown k (by grind)
      refs_lt := fun z hz ↦ Nat.lt_succ_of_lt (h.refs_lt z hz)
      flight_ref := fun x hx ↦ ⟨Nat.lt_succ_of_lt (h.flight_ref x hx).1, (h.flight_ref x hx).2⟩ }
  | release x hflight =>
    have hmem : ∀ k ∈ x.unclaimed, k ∈ x.keys := fun k hk ↦ (mem_unclaimed.mp hk).1
    refine { h with
      refs_nodup := ?_
      refs_lt := fun z hz ↦ ?_
      flight_ref := fun y hy ↦ (by cases hy)
      known_seen := fun k' hk' ↦ ?_
      build_alone := fun _ ↦ rfl
      done_sighted := fun r hr ↦ ?_ }
    · simp only [Custody.release, List.map_append, List.map_cons, List.map_nil]
      refine List.nodup_append'.mpr ⟨h.refs_nodup, List.nodup_singleton _, ?_⟩
      simp only [List.disjoint_singleton, List.mem_map, not_exists, not_and]
      exact fun z hz ↦ (h.refs_lt z hz).ne
    · rcases List.mem_append.mp hz with hz | hz
      · exact Nat.lt_succ_of_lt (h.refs_lt z hz)
      · cases List.mem_singleton.mp hz
        exact Nat.lt_succ_self _
    · show k' ∈ c.seen
      simp only [Custody.release] at hk'
      grind
    · obtain ⟨z, hz, hz'⟩ := h.done_sighted r hr
      exact ⟨z, List.mem_append_left _ hz, hz'⟩
  | forget released hsub hdrop =>
    refine h.drop hsub fun r hr ↦ ?_
    obtain ⟨z, hz, href, hz'⟩ := h.done_sighted r hr
    exact ⟨z, (hdrop z hz).resolve_right (by simp [hz']), href, hz'⟩
  | sight z hz hsighted hG =>
    have hmap := h.mapRecords z.sameRound_note (z.sameRound_sight · true)
      fun x _ _ hx ↦ sighted_of_sight hx
    have hlow : ∀ k ∈ c.held.filter fun k ↦ k ∉ z.keys, k ∈ c.held := fun k hk ↦
      Multiset.mem_of_mem_filter hk
    refine { hmap with
      known_seen := fun k' hk' ↦ ?_
      held_taken := fun k hk ↦ h.held_taken k (hlow k hk) }
    cases hk' with
    | queue hmem => exact hknown k' (.queue (List.mem_of_mem_filter hmem))
    | held hmem => exact hknown k' (.held (hlow k' hmem))
    | flight x hx hmem => exact hmap.known_seen k' (.flight x hx hmem)
    | released y hy hmem => exact hmap.known_seen k' (.released y hy hmem)
    | _ => grind [Custody.sight]
  | unsight z hturn hG =>
    have hmap := h.mapRecords z.sameRound_drop (z.sameRound_unsight · false)
      fun x _ hdone hx ↦ by
        rw [split_of_ne fun href ↦ hturn.pending (href ▸ hdone)]
        exact hx
    refine { hmap with known_seen := fun k' hk' ↦ ?_ }
    cases hk' with
    | queue hmem =>
      rcases List.mem_append.mp hmem with hmem | hmem
      · exact hknown k' (.released z hturn.mem (List.mem_of_mem_filter hmem))
      · exact hknown k' (.queue hmem)
    | flight x hx hmem => exact hmap.known_seen k' (.flight x hx hmem)
    | released y hy hmem => exact hmap.known_seen k' (.released y hy hmem)
    | _ => grind [Custody.unsight]
  | settleReleased z book b hturn hG hb =>
    have hsettle := h.settle hb fun k hk ↦ .released z hturn.mem hk
    refine { hsettle with
      known_seen := fun k hk ↦ hsettle.known_seen k (by grind)
      done_sighted := fun r hr ↦ ?_ }
    rcases List.mem_cons.mp hr with rfl | hr
    · exact ⟨z, hturn.mem, rfl, hturn.sighted⟩
    · exact h.done_sighted r hr
  | settleFlight x book b hflight hG hb =>
    have hsettle := h.settle hb fun k hk ↦ .flight x hflight hk
    refine { hsettle with
      flight_ref := fun y hy ↦ (by cases hy)
      known_seen := fun k hk ↦ hsettle.known_seen k ?_
      build_alone := fun _ ↦ rfl }
    grind
  | closePass released hsub hdrop hkeep => exact h.drop hsub fun _ hr ↦ (by cases hr)
  | abortPass dropped hdone hG => exact h.drop (List.Sublist.refl _) fun _ hr ↦ (by cases hr)
  | reseal k k' htaken hk hbare hpair hsealed hnew =>
    have hlow : ∀ x ∈ c.due.erase k, x ∈ c.due := fun x hx ↦ Multiset.mem_of_mem_erase hx
    have hdue := h.due_placed
    refine { h with
      known_seen := fun x hx ↦ ?_, seen_placed := fun x hx ↦ ?_, due_placed := fun x hx ↦ ?_ }
    · cases hx <;> simp only [Multiset.mem_cons] at * <;> grind
    · grind
    · simp only [Multiset.mem_cons] at hx
      grind
  | repost k htaken hk hsealed =>
    have hlow : ∀ x ∈ c.due.erase k, x ∈ c.due := fun x hx ↦ Multiset.mem_of_mem_erase hx
    have hdue := h.due_placed
    refine { h with known_seen := fun x hx ↦ ?_, due_placed := fun x hx ↦ ?_ }
    · cases hx <;> simp only [Multiset.mem_cons] at * <;> grind
    · grind
  | lapse k htaken hk =>
    have hlow : ∀ x ∈ c.due.erase k, x ∈ c.due := fun x hx ↦ Multiset.mem_of_mem_erase hx
    have hdue := h.due_placed
    refine { h with
      known_seen := fun x hx ↦ ?_, due_placed := fun x hx ↦ ?_
      spent_ended := fun x hx ↦ List.mem_cons_of_mem _ (h.spent_ended x hx) }
    · cases hx <;> simp only [Multiset.mem_cons] at * <;> grind
    · simp only [Multiset.mem_cons] at hx
      grind
  | closeDrain retry hdue =>
    refine { h with known_seen := fun x hx ↦ ?_, due_placed := fun x hx ↦ ?_ }
    · cases hx <;> grind
    · exact h.due_placed x (Or.inl (by simpa using hx))
  | abortDrain retry reposted lapsed hrepost hlapse hretry hG =>
    have hmem : ∀ x, x ∈ retry ↔ x ∈ c.due ∨ x ∈ c.reposted ∨ x ∈ c.lapsed := fun x ↦ by
      rw [← Multiset.mem_coe, hretry, hrepost, hlapse]
      simp [or_assoc]
    have hseen : ∀ k ∈ c.reposted, k.pair ∈ c.placed := fun k hk ↦
      h.seen_placed k (hknown k (.reposted hk))
    have hdue := h.due_placed
    refine { h with known_seen := fun x hx ↦ ?_, due_placed := fun x hx ↦ ?_ }
    · cases hx <;> simp only [Multiset.mem_coe, hmem] at * <;> grind
    · simp only [Multiset.mem_coe, hmem] at hx
      grind

end Custody

end Jamswap.Builder
