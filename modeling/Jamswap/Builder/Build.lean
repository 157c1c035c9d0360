import Jamswap.Builder.Planning
import Jamswap.Builder.Resolver

/-!
# Placing, cancelling and building a round

`buildRound` takes the orders of one round out of the mempool, prices and checks them, clears them
and submits the round; until the round is registered its orders are only in the build's own hands,
and an exception puts them back (`requeueUnsent`). With `placeOrder`, `cancelPending` and the
resolver's sweep these are the atomic steps of one market's builder (`step`).
-/

namespace Jamswap.Builder

open Library Engine Service Prog

section Programs

variable (H : Host)

/-! ### Readiness and capacity -/

/-- `expired_pairs`: resting orders whose good-till-time has passed. -/
def State.expiredPairs (s : State) (now : Time) (raw : Bytes) : List Pair :=
  ((parseBook raw).map Order.pair).filter fun p ↦ expiredAt (s.orderExpiry p) now

/-- Pin the head height at which each commit is first seen, and forget those that left the set. -/
def State.pinCommits (s : State) (entries : List Bytes) (height : Option ℕ) : State :=
  let seen := match height with
    | none => s.commitSeen
    | some h => s.commitSeen ++
      (entries.filter fun e ↦ e ∉ s.commitSeen.map Prod.fst).map fun e ↦ (e, h)
  { s with commitSeen := seen.filter fun entry ↦ entry.1 ∈ entries }

/-- `_sealed_ready_predicate`: may this sealed order be revealed this round? -/
def sealedReadyPredicate (entries : List Bytes) (fin : Finality)
    (finalEntries : Option (List Bytes)) : B (Order → Bool) :=
  match finalEntries with
  | some final =>
    pure fun o ↦ decide (H.consumedEntry o ∈ entries ∧ H.consumedEntry o ∈ final)
  | none => do
    update fun s ↦ s.pinCommits entries fin.blockHeight
    let s ← current
    let height := if fin.available then fin.finalizedHeight else none
    pure fun o ↦ decide (H.consumedEntry o ∈ entries) && match height with
      | none => true
      | some finalized => (s.commitSeen.lookup (H.consumedEntry o)).any fun h ↦ h ≤ finalized

def gasSignedOrder : ℕ := 5290000

def gasReveal : ℕ := 10100

def gasEncShare : ℕ := 18700000

/-- `_order_gas`. -/
def Host.orderGas (committee : ℕ) (o : Order) : ℕ :=
  if !o.sealed then gasSignedOrder else if H.encMode then committee * gasEncShare else gasReveal

def Host.roundGasBudget : ℕ := H.refineGas * 4 / 5

/-- The batch cap of a build: order count, refine gas, and the shrunken cap on encrypted orders. -/
def Host.fit (committee : ℕ) (encCap : Option ℕ) (orders : List Order) : List Order :=
  (capBatch orders H.maxRoundOrders (H.orderGas committee) H.roundGasBudget
    (if H.encMode then encCap else none)).1

/-! ### Pricing and the seq discipline -/

/-- `market_price`: the edge of the band the service accepts around the last price. -/
def marketPrice (side : Side) (lp : ℕ) : ℕ :=
  match side with
  | .buy => lp * (100 + marketBandPct) / 100
  | .sell => max 1 ((lp * (100 - marketBandPct) + 99) / 100)

/-- Why an order can never settle, with what the trader is told of it. -/
inductive Dead
  | unpriced
  | superseded (floor seq : ℕ)
  | duplicate (seq : ℕ)
  deriving DecidableEq, Repr

/-- Write a change of some order objects into every list that holds them. -/
def State.mapOrders (s : State) (f : Order → Order) : State :=
  let onRound := fun r : Round ↦
    { r with sealedOrders := r.sealedOrders.map f, publicOrders := r.publicOrders.map f }
  { s with
    pending := s.pending.map f
    inflight := s.inflight.map onRound
    zombies := s.zombies.map onRound
    unsent := s.unsent.map f }

/-- `_price_market_orders`: re-price each market order at the band edge of the current last price,
in place; with no last price they are dead. -/
def priceMarketOrders (publicOrders : List Order) : B (List Order × List (Order × Dead)) := do
  let market := publicOrders.filter fun o ↦ o.otype = .market
  if market = [] then pure (publicOrders, [])
  else do
    let lp ← mstate H (.lp H.market)
    if lp = 0 then
      pure (publicOrders.filter fun o ↦ o.otype ≠ .market, market.map fun o ↦ (o, .unpriced))
    else do
      let reprice := fun o : Order ↦
        if o.ref ∈ market.map Order.ref then { o with price := marketPrice o.side lp } else o
      update fun s ↦ s.mapOrders reprice
      pure (publicOrders.map reprice, [])

/-- The walk of `_seq_sanitize` over the orders sorted by account and seq, with the floors read so
far and the running floors. -/
def sanitizeEach : List Order → (UInt32 → Option ℕ) → (UInt32 → Option ℕ) →
    B (List Order × List (Order × Dead))
  | [], _, _ => pure ([], [])
  | o :: orders, floors, run => do
    let floor ← (match floors o.account with
      | some floor => pure floor
      | none => seqFloor H o.account : B ℕ)
    let floors := Function.update floors o.account (some floor)
    let running := (run o.account).getD floor
    if o.seq.toNat ≤ floor then do
      let (kept, dead) ← sanitizeEach orders floors run
      pure (kept, (o, .superseded floor o.seq.toNat) :: dead)
    else if o.seq.toNat ≤ running then do
      let (kept, dead) ← sanitizeEach orders floors run
      pure (kept, (o, .duplicate o.seq.toNat) :: dead)
    else do
      let (kept, dead) ←
        sanitizeEach orders floors (Function.update run o.account (some o.seq.toNat))
      pure (o :: kept, dead)

/-- `_seq_sanitize`: the orders that pass the service's running-floor check, and the dead ones. -/
def seqSanitize (orders : List Order) : B (List Order × List (Order × Dead)) :=
  sanitizeEach H (orders.insertionSort fun a b ↦
    a.account < b.account ∨ (a.account = b.account ∧ a.seq ≤ b.seq)) (fun _ ↦ none) fun _ ↦ none

/-! ### Assembling a round -/

/-- Look at the released rounds, when there are any. -/
def watchReleased : B (List OKey) := do
  let s ← current
  if s.zombies = [] then pure []
  else do
    let now ← time H
    resolveZombies H now

/-- End an order the build took, with a terminal outcome. -/
def State.endTaken (s : State) (o : Order) (outcome : Outcome) : State :=
  { (s.log (.terminal o.pair outcome)).popExpiry o.pair with endedKeys := o.key :: s.endedKeys }

/-- A sealed order left without a counterparty among the orders this round submits is not revealed
but goes back to the queue. -/
def keepCrossing (sealedOrders publicOrders resting : List Order) (now : Time) :
    B (List Order) := do
  let kept := (planRound (sealedOrders ++ publicOrders) resting now fun _ ↦ true).reveal
  if kept.length < sealedOrders.length then do
    update fun s ↦ { s with pending := (sealedOrders.filter fun o ↦ o ∉ kept) ++ s.pending }
    pure kept
  else pure sealedOrders

/-- market ‖ base ‖ quote. -/
def Host.header : Bytes := u32Bytes H.market ++ u32Bytes H.base ++ u32Bytes H.quote

/-- The work-item payload of the round. -/
def roundPayload (sealedOrders : List Order) (pubSection : Bytes) : B Bytes :=
  if sealedOrders = [] then pure ([Tag.smatch.byte] ++ H.header ++ pubSection)
  else if H.encMode then ask fun n ↦
    H.committeeRound n pubSection (sealedOrders.map Order.ciphertext)
  else ofOption (do
    let commits := sealedOrders.flatMap fun o ↦ (commitment H.prims o.reveal).val
    let reveals := sealedOrders.flatMap Order.reveal
    let commitsLen ← pack32 commits.length
    let revealsLen ← pack32 reveals.length
    pure ([Tag.reveal.byte] ++ H.header ++ commitsLen ++ commits ++ revealsLen ++ reveals ++
      pubSection))

/-- Lower the recorded seq of the order's account to this order's. -/
def noteSeq (minseq : List (UInt32 × UInt64)) (o : Order) : List (UInt32 × UInt64) :=
  match minseq with
  | [] => [(o.account, o.seq)]
  | (account, seq) :: rest =>
    if account = o.account then (account, min seq o.seq) :: rest
    else (account, seq) :: noteSeq rest o

/-- The record of a round about to be submitted. -/
def Host.record (ref : ℕ) (t : Time) (sealedOrders publicOrders resting : List Order)
    (pruned : List Pair) (raw payload : Bytes) : Round where
  ref := ref
  t := t
  sealedOrders := sealedOrders
  publicOrders := publicOrders
  resting := resting
  clearing := clear (resting ++ sealedOrders ++ publicOrders)
  pruned := pruned
  rid := roundId H.prims payload
  bookHash := commitment H.prims raw
  consumed := sealedOrders.map H.consumedEntry
  setKey := H.setKey
  minseq := publicOrders.foldl noteSeq []

/-- `_assemble_round`: the rest of a build once its orders are out of the mempool. Returns the
record and the payload, or nothing when there is nothing to submit. -/
def assembleRound (now : Time) (raw : Bytes) (pruned : List Pair) (plan : RoundPlan)
    (resting : List Order) : B (Option (Round × Bytes)) := do
  let (publicOrders, unpriced) ← priceMarketOrders H plan.publicOrders
  let (publicOrders, stale) ← seqSanitize H publicOrders
  -- an order may be stale because its own released round landed a moment ago: look again
  let claimed ← watchReleased H
  let sealedOrders := plan.reveal.filter fun o ↦ o.key ∉ claimed
  let publicOrders := publicOrders.filter fun o ↦ o.key ∉ claimed
  let dead := (unpriced ++ stale).filter fun entry ↦ entry.1.key ∉ claimed
  forEach (fun entry : Order × Dead ↦ update fun s ↦ s.endTaken entry.1 .rejected) dead
  let sealedOrders ← keepCrossing sealedOrders publicOrders resting now
  if sealedOrders = [] ∧ publicOrders = [] ∧ pruned = [] then do
    let _ ← mstate H (.lp H.market)
    let _ ← mstate H (.cv H.market)
    let _ ← storage H (.book H.market)
    pure none
  else do
    let pubSection ← ofOption (publicSectionBytes publicOrders pruned raw)
    let payload ← rescue (roundPayload H sealedOrders pubSection) (do
      let t ← time H
      update fun s ↦ { s with roundGate := some t })
    let t ← time H
    let s ← current
    pure (some (H.record s.refs t sealedOrders publicOrders resting pruned raw payload, payload))

/-! ### Building a round -/

/-- What a build reports. -/
inductive Reply
  | gated
  | nothing
  | backpressure
  | queued
  deriving DecidableEq, Repr

def roundZerofillSecs : Time := secs 30

/-- May the market build now? A cool-down that is over is forgotten. -/
def passGate : B Bool := do
  let s ← current
  match s.roundGate with
  | none => pure true
  | some start => do
    let now ← time H
    if now - start < roundZerofillSecs then pure false
    else do
      update fun s ↦ { s with roundGate := none }
      pure true

/-- Attach each queued order's current good-till-time. -/
def State.attachExpiry (s : State) : State :=
  { s with pending := s.pending.map fun o ↦ { o with expiry := s.orderExpiry o.pair } }

/-- Take the plan's orders out of the mempool. -/
def State.takeBatch (s : State) (plan : RoundPlan) : State :=
  { s with
    pending := s.pending.filter fun o ↦ o ∈ plan.waits
    unsent := s.pending.filter fun o ↦ o.key ∈ plan.leaves.map Order.key
    endedKeys := [] }

/-- `_requeue_unsent`: put back what a failed build still owns, at the front: not what it ended, not
what a landed released round holds, and nothing twice. -/
def State.requeueUnsent (s : State) : State :=
  let skip := s.endedKeys ++ (s.zombies.filter Round.sighted).flatMap Round.keys ++
    s.pending.map Order.key
  { s with
    pending := (s.unsent.filter fun o ↦ o.key ∉ skip) ++ s.pending
    unsent := []
    endedKeys := [] }

/-- The round is in flight from before its submission. -/
def State.register (s : State) (rec : Round) : State :=
  { s with inflight := some rec, refs := s.refs + 1, unsent := [], endedKeys := [] }

/-- The round never left the builder: its orders are still the oldest of their accounts. -/
def State.unregister (s : State) (rec : Round) (now : Time) : State :=
  { s with inflight := none, pending := rec.orders ++ s.pending, roundGate := some now }

/-- One record per round id: an unchanged rebuild of a released round is that round. -/
def State.dropSame (s : State) (rid : Bytes32) : State :=
  { s with zombies := s.zombies.filter fun z ↦ z.rid ≠ rid ∨ z.sighted = true }

/-- Submit a registered round. -/
def submitRound (rec : Round) (payload : Bytes) : B Reply := do
  update fun s ↦ s.note (.submitted (rec.holding false))
  update fun s ↦ s.register rec
  let sent ← submit H payload
  match sent with
  | .busy => do
    let now ← time H
    update fun s ↦ s.unregister rec now
    pure .backpressure
  | .accepted | .failed => do
    update fun s ↦ s.dropSame rec.rid
    pure .queued

/-- Decide the round: which orders clear now, against which part of the book. -/
def planStep (now : Time) : B (RoundPlan × List Order × Bytes × List Pair) := do
  let raw ← storage H (.book H.market)
  let t ← time H
  let s ← current
  let pruned := s.expiredPairs t raw
  let entries ← storage H H.setKey
  let fin ← readFinality H
  let finalRaw ← (if fin.available then storageFinal H H.setKey else pure none : B (Option Bytes))
  let ready ← sealedReadyPredicate H (setEntries entries) fin (finalRaw.map setEntries)
  let committee ← (if H.encMode then committeeSize H else pure 0 : B ℕ)
  update State.attachExpiry
  let s ← current
  let resting := (parseBook raw).filter fun o ↦ o.pair ∉ pruned
  let plan := planBatch s.pending resting (H.fit committee s.encCap) now ready
  update fun s ↦ s.takeBatch plan
  pure (plan, resting, raw, pruned)

/-- `_build_round`. -/
def buildRound : B Reply := do
  let s ← current
  match s.inflight with
  | some _ => pure .gated
  | none => do
    let passed ← passGate H
    if passed then do
      let _ ← watchReleased H
      let now ← time H
      let (plan, resting, raw, pruned) ← planStep H now
      let assembled ← rescue (do
        forEach (fun o ↦ update fun s ↦ s.endTaken o .expired) plan.expired
        assembleRound H now raw pruned plan resting) (update State.requeueUnsent)
      match assembled with
      | none => do
        update fun s ↦ { s with unsent := [], endedKeys := [] }
        pure .nothing
      | some (rec, payload) => submitRound H rec payload
    else pure .gated

/-! ### Cancelling and placing -/

/-- Can one of these released rounds, all carrying the order, still settle? -/
def anyCanLand : List Round → B Bool
  | [] => pure false
  | z :: zombies =>
    if z.sighted then pure true
    else do
      let why ← roundDead H z
      if why = none then pure true else anyCanLand zombies

/-- `api_cancel_pending`: remove an order from the mempool and end it, unless a released round that
carries it may still settle. -/
def cancelPending (p : Pair) : B Unit := do
  let s ← current
  let hits := s.pending.filter fun o ↦ o.pair = p
  if hits = [] then pure ()
  else do
    let blocked ← anyCanLand H (s.zombies.filter fun z ↦ ∃ o ∈ hits, o.key ∈ z.keys)
    if blocked then raise
    else do
      update fun s ↦ { s with pending := s.pending.filter fun o ↦ o.pair ≠ p }
      forEach (fun o ↦ do
        update fun s ↦ s.popExpiry o.pair
        recordExec o.pair .cancelled) hits

/-- An order request that carries its own id: the counter's, or the sealed draft's. -/
structure Request where
  account : UInt32
  oid : ℕ
  side : Side
  price : ℕ
  qty : ℕ
  otype : OrderType := .limit
  sealed : Bool := false
  sig : Bytes := []
  pubkey : Bytes32 := FixedBytes.ofBytes 32 []
  seq : UInt64 := 0
  signedPrice : ℕ := 0
  commitSeq : UInt64 := 0
  commitSig : Bytes := []
  /-- requested lifetime; zero asks for the longest -/
  ttl : Time := 0

def Request.pair (q : Request) : Pair := (q.account, q.oid)

/-- A public order must carry a seq and a signature; its own check at the door. -/
def Request.unsigned (q : Request) : Bool := !q.sealed && (q.seq == 0 || q.sig.length != 64)

def Request.order (q : Request) (ref : ℕ) : Order :=
  { ref, account := q.account, oid := q.oid, side := q.side, price := q.price, qty := q.qty
    otype := q.otype, sealed := q.sealed, sig := q.sig, pubkey := q.pubkey, seq := q.seq
    signedPrice := q.signedPrice }

/-- `_submit_signed_commit`: post the owner-signed commitment. -/
def submitSignedCommit (q : Request) (o : Order) : B Unit := do
  let pk ← storage H (.pk q.account)
  let tail := u64Bytes q.commitSeq ++ q.commitSig ++ pk.take 32
  if pk.length < 32 then raise
  else do
    let sent ← submit H (if H.encMode
      then [Tag.encCommit.byte] ++ u32Bytes H.market ++ o.ciphertext ++ u32Bytes q.account ++ tail
      else [Tag.commit.byte] ++ u32Bytes H.market ++ u32Bytes q.account ++
        (o.commit.map Subtype.val).getD [] ++ tail)
    if sent = .accepted then pure () else raise

/-- `api_order`, with the draft of `api_seal_prepare` for a sealed order: past the checks at the
door, the order gets its expiry, its commitment is posted, and it is queued. -/
def placeOrder (q : Request) : B Unit := do
  let refused ← ask fun n ↦ some (H.refuses n)
  if refused || q.unsigned then raise
  else do
    let s ← current
    let o ← (if q.sealed then sealMaterial H (q.order s.serials) else pure (q.order s.serials) :
      B Order)
    let now ← time H
    let life := H.orderLifetime q.sealed
    update fun s ↦ { s with
      serials := s.serials + 1
      orderExpiry := Function.update s.orderExpiry q.pair
        (some (now + if 0 < q.ttl then min q.ttl life else life)) }
    when q.sealed (submitSignedCommit H q o)
    update fun s ↦ s.note (.placed o.key)
    update fun s ↦ { s with pending := s.pending ++ [o] }.log (.placed q.pair)

/-! ### Runs -/

/-- The atomic steps of one market's builder. -/
inductive Action
  | place (request : Request)
  | cancel (order : Pair)
  | build
  | sweep

def perform : Action → B Unit
  | .place q => placeOrder H q
  | .cancel p => cancelPending H p
  | .build => do
    let _ ← buildRound H
    pure ()
  | .sweep => resolveRoundsOnce H

/-- One step, from the number of the next interaction and the state. -/
def step (w : ℕ × State) (a : Action) : ℕ × State := (perform H a w.1 w.2).2

/-- The state after a run from an empty builder. -/
def run (actions : List Action) : State := (actions.foldl (step H) (0, {})).2

end Programs

end Jamswap.Builder
