import Jamswap.Builder.State

/-!
# The resolver

What happens to a round after it is submitted. The resolver sweeps every two seconds: it retries the
re-seals that could not be posted, watches the released rounds for a late landing (`resolveZombies`)
and judges the round in flight (`resolveInflight`). A released round seen landed claims its orders
from the mempool and from every other record carrying copies; a re-org gives them back. A landing
that lasts is finalized: receipts are handed out and sealed remainders re-sealed.
-/

namespace Jamswap.Builder

open Library Engine Service Prog

/-! ### Claims -/

/-- Note on a record that the landed round `z` holds the orders they share. -/
def Round.noteClaim (z fr : Round) : Round :=
  { fr with claimed := fun k ↦ if k ∈ fr.keys ∧ k ∈ z.keys then some z.rid else fr.claimed k }

/-- Forget what the round `z` had claimed. -/
def Round.dropClaim (z fr : Round) : Round :=
  { fr with claimed := fun k ↦ if fr.claimed k = some z.rid then none else fr.claimed k }

/-- Change every tracked record but `z`'s own. -/
def State.mapOthers (s : State) (z : Round) (f : Round → Round) : State :=
  { s with
    inflight := s.inflight.map fun fr ↦ if fr.ref = z.ref then fr else f fr
    zombies := s.zombies.map fun fr ↦ if fr.ref = z.ref then fr else f fr }

/-- `_claim`: the released round `z` landed after all, so its orders are its to receipt. -/
def State.claim (s : State) (z : Round) : State :=
  { s.mapOthers z z.noteClaim with pending := s.pending.filter fun o ↦ o.key ∉ z.keys }

/-- `_unclaim`: a re-org erased the landing of `z`. Records carrying copies own them again; the rest
go back to the front of the mempool. -/
def State.unclaim (s : State) (z : Round) : State :=
  let s' := s.mapOthers z z.dropClaim
  let others := s'.inflight.toList.filter (fun fr ↦ fr.ref ≠ z.ref) ++
    s'.zombies.filter fun fr ↦ fr.ref ≠ z.ref ∧ fr.sighted = true
  let busy := others.flatMap Round.keys ++ s.pending.map Order.key
  { s' with pending := (z.orders.filter fun o ↦ o.key ∉ busy) ++ s.pending }

/-- Change one released round in place. -/
def State.setZombie (s : State) (ref : ℕ) (f : Round → Round) : State :=
  { s with zombies := s.zombies.map fun z ↦ if z.ref = ref then f z else z }

/-! ### Release -/

/-- Why a round is released. -/
inductive Release
  | bookMoved
  | commitGone
  | seqFloor
  | timeout
  deriving DecidableEq, Repr

def zombieCap : ℕ := 32

/-- Forget the oldest unsighted released rounds beyond the cap; a sighted one holds orders it will
receipt, so when only those are left nothing is forgotten. -/
def evict : ℕ → List Round → List Round
  | 0, zombies => zombies
  | fuel + 1, zombies =>
    if zombieCap < zombies.length ∧ zombies.any fun z ↦ !z.sighted then
      evict fuel (zombies.eraseP fun z ↦ !z.sighted)
    else zombies

/-- `_abandon`: release a round that won't settle, or hasn't. Its orders go back to the front of the
mempool, except those a landed released round claimed. -/
def State.abandon (s : State) (H : Host) (fr : Round) (why : Release) (now : Time) : State :=
  let zombie := { fr with ref := s.refs, abandonedAt := now, okSince := none }
  let zombies := s.zombies ++ [zombie]
  let s := { s with
    inflight := none
    pending := fr.unclaimed fr.orders ++ s.pending
    zombies := evict zombies.length zombies
    refs := s.refs + 1 }
  if why = .timeout then
    { s with
      roundGate := some now
      encCap := if fr.setKey = .encset H.market ∧ fr.sealedOrders ≠ []
        then some (max 1 (fr.sealedOrders.length / 2)) else s.encCap }
  else s

/-! ### Finalizing -/

section Programs

variable (H : Host)

/-- `_record_exec`, as far as the order's life goes: a terminal disposition ends it. -/
def recordExec (p : Pair) (disposition : Disposition) : B Unit :=
  update fun s ↦ match disposition.terminal with
    | some outcome => s.log (.terminal p outcome)
    | none => s

/-- `exp and exp <= now`. -/
def expiredAt (expiry : Option Time) (now : Time) : Bool :=
  expiry.any fun e ↦ decide (e ≠ 0 ∧ e ≤ now)

/-- The unfilled remainder of a sealed order, a new object under the same id. -/
def remainderOf (o : Order) (rem ref : ℕ) : Order :=
  { ref, account := o.account, oid := o.oid, side := o.side, price := o.price, qty := rem
    otype := o.otype, sealed := true }

/-- The loop of `_carry_sealed_remainders`: the remainders re-sealed now, and each order's
disposition. A remainder that cannot be posted is queued for retry. -/
def carryEach (now : Time) (clearing : Clearing) :
    List Order → B (List Order × List (Order × Disposition))
  | [] => pure ([], [])
  | o :: orders => do
    let filled := clearing.filled o.oid
    let s ← current
    if o.qty ≤ filled then do
      let (carried, rest) ← carryEach now clearing orders
      pure (carried, (o, .filled) :: rest)
    else if expiredAt (s.orderExpiry o.pair) now then do
      let (carried, rest) ← carryEach now clearing orders
      pure (carried, (o, if 0 < filled then .partialCancelled else .cancelled) :: rest)
    else do
      update fun s ↦ { s with serials := s.serials + 1 }
      let (r, sent) ← postCarrySeal H (remainderOf o (o.qty - filled) s.serials)
      update fun s ↦ if sent then s else { s with carryRetry := s.carryRetry ++ [r] }
      let (carried, rest) ← carryEach now clearing orders
      pure (if sent then r :: carried else carried,
        (o, if 0 < filled then .partialCarried else .carried) :: rest)

/-- `_carry_sealed_remainders`. -/
def carrySealedRemainders (now : Time) (clearing : Clearing) (sealedOrders : List Order) :
    B (List (Order × Disposition)) := do
  let (carried, dispositions) ← carryEach H now clearing sealedOrders
  update fun s ↦ { s with pending := s.pending ++ carried }
  pure dispositions

/-- A public order, or a resting maker, after its round: what is left rests on the book. -/
def recordPublic (o : Order) (filled : ℕ) (revealed : Bool) : B Unit :=
  if revealed then
    recordExec o.pair (if o.qty ≤ filled then .filled
      else if 0 < filled then .partialCancelled else .cancelled)
  else if filled < o.qty then do
    update fun s ↦ s.log (.rested o.pair)
    when (decide (filled ≠ 0)) (recordExec o.pair .partialResting)
  else recordExec o.pair .filled

/-- Did the order's limit reach the round's price? -/
def reached (clearing : Clearing) (o : Order) : Bool :=
  clearing.volume ≠ 0 && match o.side with
    | .buy => decide (clearing.price ≤ o.price)
    | .sell => decide (o.price ≤ clearing.price)

/-- A resting maker: still resting when part-filled or passed over at the price, ended when
filled. -/
def recordMaker (clearing : Clearing) (o : Order) : B Unit := do
  let filled := clearing.filled o.oid
  when (decide (filled < o.qty) && (decide (0 < filled) || reached clearing o))
    (update fun s ↦ s.log (.rested o.pair))
  when (decide (0 < filled))
    (recordExec o.pair (if o.qty ≤ filled then .filled else .partialResting))

/-- `record_executions`: a receipt for each sealed and public order of the round, then for the
resting makers it filled. An id that a sealed order of the round carries is receipted as sealed. -/
def recordExecutions (resting : List Order) (sealedOrders : List (Order × Disposition))
    (publicOrders : List Order) (clearing : Clearing) (rid : Bytes32) : B Unit :=
  if resting = [] ∧ sealedOrders = [] ∧ publicOrders = [] then pure ()
  else do
    let _ ← attempt (landedFinal H rid)
    forEach (fun entry : Order × Disposition ↦ recordExec entry.1.pair entry.2) sealedOrders
    forEach (fun o ↦ recordPublic o (clearing.filled o.oid)
      (sealedOrders.any fun entry ↦ entry.1.oid = o.oid)) publicOrders
    forEach (recordMaker clearing) resting

/-- The encrypted cap grows back once an encrypted round lands. -/
def State.growEncCap (s : State) (H : Host) (fr : Round) : State :=
  match s.encCap with
  | none => s
  | some cap =>
    if fr.setKey = .encset H.market ∧ fr.sealedOrders ≠ [] then
      let grown := max cap (2 * fr.sealedOrders.length)
      { s with encCap := if H.maxRoundOrders ≤ grown then none else some grown }
    else s

def State.popExpiry (s : State) (p : Pair) : State :=
  { s with orderExpiry := Function.update s.orderExpiry p none }

/-- The resting orders a round ends when it is finalized: the makers it fills and those
it prunes. -/
def Round.endsOnBook (fr : Round) : List Pair :=
  (fr.resting.filter fun o ↦ 0 < fr.clearing.filled o.oid ∧ o.qty ≤ fr.clearing.filled o.oid).map
    Order.pair ++ fr.pruned

/-- `_finalize_round`: carry the sealed remainders, hand out receipts and end what was pruned.
Orders another landed round claimed are that round's to receipt. -/
def finalizeRound (fr : Round) : B Unit := do
  let now ← time H
  update fun s ↦ s.growEncCap H fr
  let dispositions ← carrySealedRemainders H now fr.clearing (fr.unclaimed fr.sealedOrders)
  recordExecutions H fr.resting dispositions (fr.unclaimed fr.publicOrders) fr.clearing fr.rid
  update fun s ↦ { s with receipts := (fr.unclaimed fr.orders).map Order.key ++ s.receipts }
  forEach (fun p ↦ update fun s ↦ (s.popExpiry p).log (.terminal p .expired)) fr.pruned

/-! ### Judging a round -/

def slotSecs : ℕ := 6

def minConfirmSecs : Time := secs 2

/-- `settle_hold_secs`. -/
def settleHold : B Time :=
  match H.settleHoldSecs with
  | some hold => pure hold
  | none => do
    let advancing ← finalityAdvancing H
    pure (if advancing then 0 else secs (H.settleHoldSlots * slotSecs))

/-- The landing has held on the best chain for the settle hold. -/
def heldLongEnough (since now : Time) : B Bool := do
  let hold ← settleHold H
  pure (decide (max hold minConfirmSecs ≤ now - since))

/-- `_confirmed`: is a landing first seen at `since` durable enough to receipt? -/
def confirmed (rid : Bytes32) (since now : Time) : B Bool := do
  let final ← attempt (landedFinal H rid)
  match final with
  | none => pure false
  | some (some true) => pure true
  | some (some false) =>
    match H.settleHoldSecs with
    | some _ => heldLongEnough H since now
    | none => do
      -- finality replaces the timer while it advances
      let advancing ← finalityAdvancing H
      if advancing then pure false else heldLongEnough H since now
  | some none => heldLongEnough H since now

def anyLanded : List Round → B Bool
  | [] => pure false
  | r :: rounds => do
    let slot ← landedSlot H r.rid
    if slot.isSome then pure true else anyLanded rounds

/-- `_rival_landed`: another tracked round sharing an order also reads as landed. -/
def rivalLanded (fr : Round) : B Bool := do
  let s ← current
  anyLanded H (s.records.filter fun other ↦ other.ref ≠ fr.ref ∧ ∃ k ∈ other.keys, k ∈ fr.keys)

def anyFloorPast : List (UInt32 × UInt64) → B Bool
  | [] => pure false
  | (account, seq) :: rest => do
    let floor ← seqFloor H account
    if seq.toNat ≤ floor then pure true else anyFloorPast rest

/-- The later preconditions of `_round_dead`. -/
def floorsPast (fr : Round) : B (Option Release) := do
  let past ← anyFloorPast H fr.minseq
  pure (if past then some .seqFloor else none)

/-- `_round_dead`: why the round can no longer settle, if it cannot. -/
def roundDead (fr : Round) : B (Option Release) := do
  let book ← storage H (.book H.market)
  if commitment H.prims book ≠ fr.bookHash then pure (some .bookMoved)
  else if fr.consumed = [] then floorsPast H fr
  else do
    let raw ← storage H fr.setKey
    if fr.consumed.any fun e ↦ e ∉ setEntries raw then pure (some .commitGone)
    else floorsPast H fr

/-! ### The sweep -/

/-- One released round's turn: is it still watched, and which keys did it claim? Its landed marker
decides: landed for the first time, it claims its orders; landed and durable, it is finalized; gone
after a sighting, it gives its orders back. -/
def visitZombie (now : Time) (z : Round) : B (Bool × List OKey) := do
  if z.okSince = none ∧ H.zombieWatchSecs < now - z.abandonedAt then pure (false, [])
  else do
    let slot ← attempt (landedSlot H z.rid)
    match slot, z.okSince with
    | none, _ => pure (true, [])
    | some (some _), none => do
      update fun s ↦ s.note (.sighted (z.holding z.sighted))
      update fun s ↦ (s.setZombie z.ref fun z ↦ { z with okSince := some now }).claim z
      pure (true, z.keys)
    | some (some _), some since => do
      let durable ← confirmed H z.rid since now
      if durable then do
        let rival ← rivalLanded H z
        if rival then pure (true, [])
        else do
          update fun s ↦ s.note (.finalized (z.holding z.sighted) z.endsOnBook)
          let _ ← attempt (finalizeRound H z)
          pure (false, [])
      else pure (true, [])
    | some none, none => pure (true, [])
    | some none, some _ => do
      update fun s ↦ s.note (.reverted (z.holding z.sighted))
      update fun s ↦ (s.setZombie z.ref fun z ↦ { z with okSince := none }).unclaim z
      pure (true, [])

/-- The loop over the released rounds, each as the turns before it left it, with those let go so
far. The list itself is rewritten only afterwards, so an exception on the way leaves every one of
them listed. -/
def visitEach (now : Time) : List ℕ → List Holding → B (List ℕ × List OKey)
  | [], _ => pure ([], [])
  | ref :: refs, dropped => do
    let s ← current
    match s.zombies.find? fun z ↦ z.ref = ref with
    | none => visitEach now refs dropped
    | some z => do
      let (keep, claimed) ← rescue (visitZombie H now z)
        (update fun s ↦ s.note fun _ ↦ .passAborted dropped)
      let (kept, more) ← visitEach now refs
        (if keep then dropped else z.holding z.sighted :: dropped)
      pure (if keep then ref :: kept else kept, claimed ++ more)

/-- `_resolve_zombies`: returns the order keys this call claimed. -/
def resolveZombies (now : Time) : B (List OKey) := do
  let s ← current
  let (kept, claimed) ← visitEach H now (s.zombies.map Round.ref) []
  update fun s ↦ { s with zombies := s.zombies.filter fun z ↦ z.ref ∈ kept }
  pure claimed

/-- `_resolve_inflight`. The preconditions are read first and the marker after them, so a round that
lands between the two reads is seen as landed. -/
def resolveInflight (now : Time) (fr : Round) : B Unit := do
  let judged ← attempt (do
    let why ← roundDead H fr
    let slot ← landedSlot H fr.rid
    pure (why, slot))
  match judged, fr.okSince with
  | none, _ => pure ()
  | some (_, some _), none =>
    update fun s ↦ { s with inflight := some { fr with deadSince := none, okSince := some now } }
  | some (_, some _), some since => do
    update fun s ↦ { s with inflight := some { fr with deadSince := none } }
    let durable ← confirmed H fr.rid since now
    if durable then do
      let rival ← rivalLanded H fr
      if rival then pure ()
      else do
        update fun s ↦ s.note (.settled (fr.holding false) fr.endsOnBook)
        update fun s ↦ { s with inflight := none }
        let _ ← attempt (finalizeRound H fr)
        pure ()
    else pure ()
  | some (_, none), some _ =>
    update fun s ↦ { s with inflight := some { fr with okSince := none } }
  | some (some why, none), none =>
    -- dead, but a re-org could restore what it needs: it must stay dead for a while
    let since := fr.deadSince.getD now
    if H.deadConfirmSecs ≤ now - since then update fun s ↦ s.abandon H fr why now
    else update fun s ↦ { s with inflight := some { fr with deadSince := some since } }
  | some (none, none), none =>
    if H.roundGateSecs < now - fr.t then
      update fun s ↦ s.abandon H { fr with deadSince := none } .timeout now
    else update fun s ↦ { s with inflight := some { fr with deadSince := none } }

/-- The loop of `_drain_carry_retry` over the remainders still to do, after `done` (with `kept` the
ones to keep, `reposted` the ones back in the mempool and `lapsed` the ones ended). The queue is
rewritten only at the end; when the price read for an expired remainder fails, it still lists every
one of them. -/
def drainEach (now : Time) (done kept : List Order) (reposted lapsed : List OKey) :
    List Order → B (List Order)
  | [] => pure kept
  | r :: rest => do
    let s ← current
    if expiredAt (s.orderExpiry r.pair) now then do
      let price ← attempt (mstate H (.lp H.market))
      match price with
      | none => do
        update fun s ↦ { s with carryRetry := done ++ r :: rest }.note fun _ ↦
          .drainAborted reposted lapsed
        raise
      | some _ => do
        recordExec r.pair .cancelled
        drainEach now (done ++ [r]) kept reposted (r.key :: lapsed) rest
    else do
      let (r, sent) ← postCarrySeal H r
      if sent then do
        update fun s ↦ { s with pending := s.pending ++ [r] }
        drainEach now (done ++ [r]) kept (r.key :: reposted) lapsed rest
      else drainEach now (done ++ [r]) (kept ++ [r]) reposted lapsed rest

/-- `_drain_carry_retry`: retry the re-seals queued when the chain was busy. -/
def drainCarryRetry (now : Time) : B Unit := do
  let s ← current
  let kept ← drainEach H now [] [] [] [] s.carryRetry
  update fun s ↦ { s with carryRetry := kept }

/-- One sweep of the resolver: the queued re-seals, then the released rounds (so that their claims
are known before the live round is judged), then the round in flight. -/
def resolveRoundsOnce : B Unit := do
  let now ← time H
  drainCarryRetry H now
  let t ← time H
  let _ ← resolveZombies H t
  let s ← current
  match s.inflight with
  | none => pure ()
  | some fr => resolveInflight H t fr

end Programs

end Jamswap.Builder
