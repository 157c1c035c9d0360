import Jamswap.Builder.Orders
import Jamswap.Library.Fallible

/-!
# The builder's state and what it asks the outside

The state of one market's builder: the mempool (`pending`), the round in flight, the released rounds
still watched for a late landing (`zombies`), the remainders whose re-seal could not be posted yet
(`carryRetry`), and the smaller tables around them. `Host` is everything outside the program: the
chain node, the clock, the committee sidecar, the random source, and the settings the process was
started with. Every answer is a function of the number of the interaction, so nothing is assumed
about it: two reads of one key may differ, and any of them may fail.

Three fields of the state are not in the source. `seals` lists the commitments made so far, so that
results can say that no two coincide; `receipts` lists the keys that finalized rounds settled;
`trace` lists the decisions that later results put conditions on, each with the custody of orders in
the state it was taken in (`State.view`). No program's behaviour depends on them.
-/

namespace Jamswap.Builder

open Library Engine Service

/-- A round's record, from its submission until it is finalized or forgotten. -/
structure Round where
  /-- the record's identity -/
  ref : ℕ
  t : Time
  sealedOrders : List Order
  publicOrders : List Order
  /-- the resting book it clears against, without what it prunes -/
  resting : List Order
  clearing : Clearing
  pruned : List Pair
  rid : Bytes32
  bookHash : Bytes32
  consumed : List Bytes
  setKey : Key
  minseq : List (UInt32 × UInt64)
  /-- orders another landed round holds, with the id of that round -/
  claimed : OKey → Option Bytes32 := fun _ ↦ none
  /-- first sighting of its landed marker, while it stands -/
  okSince : Option Time := none
  deadSince : Option Time := none
  /-- when it was released -/
  abandonedAt : Time := 0

def Round.orders (r : Round) : List Order := r.sealedOrders ++ r.publicOrders

/-- `_keys`. -/
def Round.keys (r : Round) : List OKey := r.orders.map Order.key

def Round.sighted (r : Round) : Bool := r.okSince.isSome

/-- The orders the round still owns: those no other landed round claimed. -/
def Round.unclaimed (r : Round) (orders : List Order) : List Order :=
  orders.filter fun o ↦ r.claimed o.key = none

/-- What a record says about who holds its orders. -/
structure Holding where
  ref : ℕ
  rid : Bytes32
  keys : List OKey
  claimed : OKey → Option Bytes32
  sighted : Bool

/-- The keys the round still owns. -/
def Holding.unclaimed (h : Holding) : List OKey := h.keys.filter fun k ↦ h.claimed k = none

/-- Do the two rounds carry an order in common? -/
def Holding.Shares (x y : Holding) : Prop := ∃ k ∈ x.keys, k ∈ y.keys

def Round.holding (r : Round) (sighted : Bool) : Holding :=
  ⟨r.ref, r.rid, r.keys, r.claimed, sighted⟩

/-- How an order's life ends. -/
inductive Outcome
  | filled
  | partialCancelled
  | cancelled
  | expired
  | rejected
  deriving DecidableEq, Repr

/-- A receipt's disposition. -/
inductive Disposition
  | filled
  | partialCancelled
  | cancelled
  | rejected
  | carried
  | partialCarried
  | resting
  | partialResting
  deriving DecidableEq, Repr

/-- `_TERMINAL_DISP`: the dispositions that end an order. -/
def Disposition.terminal : Disposition → Option Outcome
  | .filled => some .filled
  | .partialCancelled => some .partialCancelled
  | .cancelled => some .cancelled
  | .rejected => some .rejected
  | .carried => none
  | .partialCarried => none
  | .resting => none
  | .partialResting => none

/-- The order telemetry: what a trader is told about an order. -/
inductive Event
  | placed (order : Pair)
  | rested (order : Pair)
  | terminal (order : Pair) (outcome : Outcome)
  deriving DecidableEq, Repr

/-- Who holds which order: what a state says about custody. -/
structure View where
  queue : List OKey
  flight : Option Holding
  released : List Holding
  /-- the orders a build took and has not accounted for yet -/
  taken : List OKey
  retry : List OKey
  ended : List Pair
  /-- keys of the orders that finalized rounds settled -/
  receipts : List OKey
  /-- ids of the rounds finalized so far -/
  finals : List Bytes32

/-- A decision of the builder, with the state it was taken in. -/
inductive Incident
  /-- an order is queued -/
  | placed (order : OKey) (before : View)
  /-- a round is put in flight -/
  | submitted (round : Holding) (before : View)
  /-- a released round is seen landed for the first time -/
  | sighted (round : Holding) (before : View)
  /-- the landing of a released round is undone -/
  | reverted (round : Holding) (before : View)
  /-- a released round is finalized, filling or pruning these resting orders -/
  | finalized (round : Holding) (book : List Pair) (before : View)
  /-- the round in flight is finalized -/
  | settled (round : Holding) (book : List Pair) (before : View)
  /-- a pass over the released rounds stops at a failed read, after letting go of these -/
  | passAborted (dropped : List Holding)
  /-- the drain of the carry-retry queue stops at a failed read,
  after re-posting and ending these -/
  | drainAborted (reposted lapsed : List OKey)

/-- The id of the round an incident finalizes. -/
def Incident.final? : Incident → Option Bytes32
  | .finalized round _ _ => some round.rid
  | .settled round _ _ => some round.rid
  | _ => none

/-- The state of one market's builder. -/
structure State where
  pending : List Order := []
  inflight : Option Round := none
  zombies : List Round := []
  carryRetry : List Order := []
  /-- start of a cool-down after a busy refusal or a timeout -/
  roundGate : Option Time := none
  /-- most encrypted orders a round may carry, after such a round timed out -/
  encCap : Option ℕ := none
  orderExpiry : Pair → Option Time := fun _ ↦ none
  /-- head height at which each on-chain commit entry was first seen -/
  commitSeen : List (Bytes × ℕ) := []
  events : List Event := []
  /-- orders made so far -/
  serials : ℕ := 0
  /-- round records made so far -/
  refs : ℕ := 0
  /-- a build's locals that its exception handler reads: the orders it took … -/
  unsent : List Order := []
  /-- … and the keys it ended -/
  endedKeys : List OKey := []
  seals : List Bytes32 := []
  receipts : List OKey := []
  trace : List Incident := []

def Event.placed? : Event → Option Pair
  | .placed p => some p
  | _ => none

def Event.rested? : Event → Option Pair
  | .rested p => some p
  | _ => none

def Event.terminal? : Event → Option Pair
  | .terminal p _ => some p
  | _ => none

/-- The orders placed, latest first. -/
def State.placed (s : State) : List Pair := s.events.filterMap Event.placed?

/-- The orders that finalized rounds left resting on the book. -/
def State.rested (s : State) : List Pair := s.events.filterMap Event.rested?

/-- The orders given a terminal outcome, once for each outcome given. -/
def State.ended (s : State) : List Pair := s.events.filterMap Event.terminal?

def State.view (s : State) : View where
  queue := s.pending.map Order.key
  flight := s.inflight.map fun fr ↦ fr.holding false
  released := s.zombies.map fun z ↦ z.holding z.sighted
  taken := s.unsent.map Order.key
  retry := s.carryRetry.map Order.key
  ended := s.ended
  receipts := s.receipts
  finals := s.trace.filterMap Incident.final?

/-- Record a decision taken in this state. -/
def State.note (s : State) (decision : View → Incident) : State :=
  { s with trace := decision s.view :: s.trace }

/-- `_records`: the round in flight, then the released ones. -/
def State.records (s : State) : List Round := s.inflight.toList ++ s.zombies

def State.log (s : State) (e : Event) : State := { s with events := e :: s.events }

/-! ### The outside -/

/-- `_read_finality`. -/
structure Finality where
  available : Bool := false
  blockHeight : Option ℕ := none
  finalizedHeight : Option ℕ := none

/-- What became of a submitted payload. -/
inductive Submission
  | accepted
  /-- every guarantor refused it: it never left the builder -/
  | busy
  /-- any other failure: it may have been relayed -/
  | failed
  deriving DecidableEq, Repr

/-- The settings and the outside world of one market's builder. -/
structure Host where
  prims : Primitives
  market : UInt32
  base : UInt32
  quote : UInt32
  encMode : Bool
  zombieWatchSecs : Time
  deadConfirmSecs : Time
  roundGateSecs : Time
  settleHoldSecs : Option Time
  settleHoldSlots : ℕ
  maxRoundOrders : ℕ
  refineGas : ℕ
  /-- rent-funded lifetime of a public and of a sealed order -/
  orderLifetime : Bool → Time
  clock : ℕ → Time
  /-- a storage read at the best head; none when it raises -/
  read : ℕ → Key → Option Bytes
  /-- a read at the finalized head; `some none` from a backend that cannot read there -/
  readFinal : ℕ → Key → Option (Option Bytes)
  finality : ℕ → Finality
  /-- `_finality_advancing` -/
  advancing : ℕ → Bool
  submit : ℕ → Bytes → Submission
  /-- `committee_run("round", …)` on a section and ciphertexts -/
  committeeRound : ℕ → Bytes → List Bytes → Option Bytes
  /-- `committee_run("encrypt", …)` on order bytes and a seed -/
  committeeEncrypt : ℕ → Bytes → Bytes → Option Bytes
  /-- `secrets.token_bytes(32)` -/
  token : ℕ → Bytes32
  /-- another check at the door refuses the order -/
  refuses : ℕ → Bool

/-- A builder program. -/
abbrev B := Prog State

open Prog

section Reads

variable (H : Host)

def time : B Time := ask fun n ↦ some (H.clock n)

def storage (key : Key) : B Bytes := ask fun n ↦ H.read n key

/-- `_storage_final`: the value at the finalized head,
or none when the backend cannot read there. -/
def storageFinal (key : Key) : B (Option Bytes) := ask fun n ↦ H.readFinal n key

def readFinality : B Finality := ask fun n ↦ some (H.finality n)

def finalityAdvancing : B Bool := ask fun n ↦ some (H.advancing n)

/-- `submit`, with its exceptions as an answer. -/
def submit (payload : Bytes) : B Submission := ask fun n ↦ some (H.submit n payload)

/-- `mstate`: an on-chain integer, zero when absent. -/
def mstate (key : Key) : B ℕ := do
  let v ← storage H key
  pure (leValue v)

/-- `_seq_floor`. -/
def seqFloor (account : UInt32) : B ℕ := mstate H (.sq account)

/-- `_landed_slot`. -/
def landedSlot (rid : Bytes32) : B (Option ℕ) := do
  let v ← storage H (.rl rid)
  pure (if 4 ≤ v.length then some (leValue (v.take 4)) else none)

/-- `_landed_final`: none when the backend cannot read the finalized state. -/
def landedFinal (rid : Bytes32) : B (Option Bool) := do
  let v ← storageFinal H (.rl rid)
  pure (v.map fun bytes ↦ decide (4 ≤ bytes.length))

def Host.setKey : Key := if H.encMode then .encset H.market else .commits H.market

/-- `_committee_size`. -/
def committeeSize : B ℕ := do
  let raw ← storage H .committee
  pure (match raw with
    | [] => 2
    | n :: _ => max 1 n.toNat)

/-- `_consumed_entry`: the set entry a revealed sealed order consumes. -/
def Host.consumedEntry (o : Order) : Bytes :=
  (commitment H.prims (if H.encMode then o.ciphertext else o.reveal)).val ++ u32Bytes o.account

/-- `_seal_material`: make the hiding material of a sealed order, once. -/
def sealMaterial (o : Order) : B Order := do
  let terms ← ofOption (orderBytes o)
  let token ← ask fun n ↦ some (H.token n)
  let hidden ← (if H.encMode then ask fun n ↦ H.committeeEncrypt n terms token.val
    else pure (terms ++ token.val) : B Bytes)
  let commit := commitment H.prims hidden
  update fun s ↦ { s with seals := commit :: s.seals }
  pure (if H.encMode then { o with ciphertext := hidden, commit := some commit }
    else { o with reveal := hidden, commit := some commit })

/-- `_post_carry_seal`: post the re-seal of a remainder. The seal is made once and kept on the
remainder, also when posting it fails. -/
def postCarrySeal (r : Order) : B (Order × Bool) := do
  let made ← (match r.commit with
    | some _ => pure (some r)
    | none => attempt (sealMaterial H r) : B (Option Order))
  match made with
  | none => pure (r, false)
  | some r =>
    let sent ← submit H (if H.encMode
      then [Tag.carryEncCommit.byte] ++ u32Bytes H.market ++ r.ciphertext ++ u32Bytes r.account
      else [Tag.carryCommit.byte] ++ u32Bytes H.market ++ u32Bytes r.account ++
        (r.commit.map Subtype.val).getD [])
    pure (r, sent == .accepted)

end Reads

end Jamswap.Builder
