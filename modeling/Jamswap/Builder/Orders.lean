import Jamswap.Service.Refine

/-!
# The builder's orders

The off-chain builder keeps each order as a dictionary of Python integers and byte strings. `Order`
is that dictionary: `ref` is the object's identity, so two entries of a queue are the same object
exactly when they are equal. Integers are unbounded here; packing one into a fixed-width field
raises when it does not fit (`pack32`), which is where the builder's own limits lie.

An order is followed under its key `(account, oid, commit)`: a carried sealed remainder keeps its
`oid` and gets a fresh commitment, so it is a new key of the same order (`Order.pair`).

The builder's copy of the clearing is here too: it computes the fills that receipts and re-sealed
remainders are taken from.
-/

namespace Jamswap.Builder

open Library Engine Service

/-- Unix time in microseconds. -/
abbrev Time := ℤ

def secs (n : ℤ) : Time := 1000000 * n

inductive OrderType
  | limit
  | market
  deriving DecidableEq, Repr

/-- An order dictionary. -/
structure Order where
  /-- the object's identity -/
  ref : ℕ
  account : UInt32
  oid : ℕ
  side : Side
  price : ℕ
  qty : ℕ
  otype : OrderType := .limit
  sealed : Bool := false
  /-- commitment of a sealed order, once its hiding material is made -/
  commit : Option Bytes32 := none
  reveal : Bytes := []
  ciphertext : Bytes := []
  sig : Bytes := []
  pubkey : Bytes32 := FixedBytes.ofBytes 32 []
  seq : UInt64 := 0
  signedPrice : ℕ := 0
  /-- good-till-time, attached for the planner -/
  expiry : Option Time := none
  deriving DecidableEq

/-- An order as the trader placed it: account and order id. -/
abbrev Pair := UInt32 × ℕ

instance : LawfulBEq Pair := inferInstance

/-- One incarnation of an order: the key rounds, claims and the queue go by. -/
structure OKey where
  account : UInt32
  oid : ℕ
  commit : Option Bytes32
  deriving DecidableEq

def OKey.pair (k : OKey) : Pair := (k.account, k.oid)

/-- `_okey`. -/
def Order.key (o : Order) : OKey := ⟨o.account, o.oid, o.commit⟩

def Order.pair (o : Order) : Pair := (o.account, o.oid)

/-! ### Bytes -/

/-- `struct.pack("<I", n)`, which raises when `n` does not fit. -/
def pack32 (n : ℕ) : Option Bytes :=
  if n < 2 ^ 32 then some (u32Bytes (UInt32.ofNat n)) else none

/-- `struct.pack("<H", n)`. -/
def pack16 (n : ℕ) : Option Bytes :=
  if n < 2 ^ 16 then some (u16Bytes (UInt16.ofNat n)) else none

def orderBytes (o : Order) : Option Bytes := do
  let oid ← pack32 o.oid
  let price ← pack32 o.price
  let qty ← pack32 o.qty
  pure (u32Bytes o.account ++ oid ++ [o.side.byte] ++ price ++ qty)

/-- order(17) ‖ flags(1) ‖ signed_price(4) ‖ seq(8) ‖ pubkey(32) ‖ sig(64). -/
def signedOrderBytes (o : Order) : Option Bytes := do
  let order ← orderBytes o
  let signed ← pack32 o.signedPrice
  let flags := if o.otype = .market then flagMarket else 0
  pure (order ++ [flags] ++ (signed ++ u64Bytes o.seq) ++ o.pubkey.val ++ o.sig)

/-- The signed public section every round ends with: the new signed orders, the explicit prune list
and the on-chain book, byte-exact. -/
def publicSectionBytes (publicOrders : List Order) (pruned : List Pair) (rawBook : Bytes) :
    Option Bytes := do
  let count ← pack16 publicOrders.length
  let orders ← publicOrders.mapM signedOrderBytes
  let prunes ← pack16 pruned.length
  let pairs ← pruned.mapM fun p ↦ do
    let oid ← pack32 p.2
    pure (u32Bytes p.1 ++ oid)
  pure (count ++ orders.flatten ++ (prunes ++ pairs.flatten) ++ rawBook)

/-- A resting order as the planner sees it. -/
def restingOrder (o : Engine.Order) : Order :=
  { ref := 0, account := o.account, oid := o.id.toNat, side := o.side, price := o.price.toNat
    qty := o.qty.toNat }

/-- `_parse_book`: the resting book's bytes as planner orders. A planner order is a buy or a sell,
and so is every record of a book that a run of the service stores (`canonicalBooks_run`); the
dictionary of a record with another side byte would be on neither side. -/
def parseBook (raw : Bytes) : List Order := (decodeOrders raw).map restingOrder

/-- `_set_entries`: the whole entries of an on-chain commit set. -/
def setEntries (raw : Bytes) : List Bytes := records setEntryLen raw

/-! ### The builder's clearing -/

/-- Price, volume and the fills, each with the id of the order filled. -/
structure Clearing where
  price : ℕ
  volume : ℕ
  fills : List (ℕ × ℕ)
  deriving DecidableEq

/-- `fills.get(oid, 0)`. -/
def Clearing.filled (c : Clearing) (oid : ℕ) : ℕ :=
  ((c.fills.filter fun f ↦ f.1 = oid).map Prod.snd).sum

section Clear

variable (orders : List Order)

def demand (p : ℕ) : ℕ :=
  ((orders.filter fun o ↦ o.side = .buy ∧ p ≤ o.price).map Order.qty).sum

def supply (p : ℕ) : ℕ :=
  ((orders.filter fun o ↦ o.side = .sell ∧ o.price ≤ p).map Order.qty).sum

/-- The best candidate so far; no imbalance yet stands for an infinite one. -/
structure Best where
  price : ℕ
  volume : ℕ
  imbalance : Option ℕ

def Best.consider (best : Best) (p : ℕ) : Best :=
  let d := demand orders p
  let s := supply orders p
  let v := min d s
  let imbalance := (d - s) + (s - d)
  if best.volume < v ∨ (v = best.volume ∧ 0 < v ∧ ∀ i ∈ best.imbalance, imbalance < i) then
    ⟨p, v, some imbalance⟩
  else best

/-- The submitted limit prices, ascending and without repeats. -/
def candidatePrices : List ℕ := (orders.map Order.price).dedup.insertionSort (· ≤ ·)

def bestPrice : Best := (candidatePrices orders).foldl (Best.consider orders) ⟨0, 0, none⟩

/-- Eligible buys, highest price first, then by id. -/
def eligibleBuys (p : ℕ) : List Order :=
  (orders.filter fun o ↦ o.side = .buy ∧ p ≤ o.price).insertionSort fun a b ↦
    b.price < a.price ∨ (a.price = b.price ∧ a.oid ≤ b.oid)

/-- Eligible sells, lowest price first, then by id. -/
def eligibleSells (p : ℕ) : List Order :=
  (orders.filter fun o ↦ o.side = .sell ∧ o.price ≤ p).insertionSort fun a b ↦
    a.price < b.price ∨ (a.price = b.price ∧ a.oid ≤ b.oid)

end Clear

def ration : List Order → ℕ → List (ℕ × ℕ)
  | [], _ => []
  | o :: side, rem =>
    if rem = 0 then []
    else
      let f := min rem o.qty
      (o.oid, f) :: ration side (rem - f)

/-- `clearing.clear`: the uniform-price clearing of a batch. -/
def clear (orders : List Order) : Clearing :=
  let best := bestPrice orders
  if best.volume = 0 then ⟨0, 0, []⟩
  else
    ⟨best.price, best.volume,
      ration (eligibleBuys orders best.price) best.volume ++
        ration (eligibleSells orders best.price) best.volume⟩

end Jamswap.Builder
