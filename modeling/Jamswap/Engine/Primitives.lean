import Jamswap.Library.Words
import Mathlib.Data.List.Sort

/-!
# What the program takes from outside

The service and its matching engine are built on a hash, a signature check, a curve and the
standard library's unstable sort. None of these is part of the repository, so they are the fields
of `Primitives`: every definition of the model takes one, and every result holds for all of them.
The only law required is the sort's (a sorted rearrangement of its input); results that need more,
such as two particular strings not colliding under the hash, say so as hypotheses.

`Primitives.toy` is a computable instance for evaluating the model on concrete inputs.
-/

namespace Jamswap.Engine

open Library

/-- The bytes of an ASCII literal. -/
def ascii (s : String) : Bytes := s.toList.map fun c ↦ UInt8.ofNat c.toNat

/-- A 32-byte array: a hash, a public key, a compressed point. -/
abbrev Bytes32 := FixedBytes 32

/-! ### Orders -/

/-- Side of an order. -/
inductive Side
  | buy
  | sell
  deriving DecidableEq, Repr

/-- A limit order on an integer tick grid. -/
@[ext]
structure Order where
  account : UInt32
  id : UInt32
  side : Side
  price : UInt32
  qty : UInt32
  deriving DecidableEq, Repr

/-- A reference into a batch: the order and its position there. The engine sorts and rations
references, so two orders with equal fields stay distinct. -/
structure OrderRef where
  order : Order
  index : ℕ
  deriving DecidableEq, Repr

/-- The references into a batch, in batch order. -/
def refs (orders : List Order) : List OrderRef :=
  orders.zipIdx.map fun entry ↦ ⟨entry.1, entry.2⟩

/-- `slice::sort_unstable_by`: some sorted rearrangement, with ties in any order. -/
structure UnstableSort (α : Type) where
  sort : (α → α → Bool) → List α → List α
  perm : ∀ le xs, (sort le xs).Perm xs
  sorted : ∀ le : α → α → Bool, (∀ a b, le a b || le b a) →
    (∀ a b c, le a b → le b c → le a c) → ∀ xs, (sort le xs).Pairwise fun a b ↦ le a b

/-- The curve the committee's decryption proofs are about. -/
structure Curve where
  Point : Type
  Scalar : Type
  decEqScalar : DecidableEq Scalar
  generator : Point
  identity : Point
  add : Point → Point → Point
  sub : Point → Point → Point
  smul : Point → Scalar → Point
  /-- `deserialize_compressed` of 32 bytes. -/
  decodePoint : Bytes → Option Point
  encodePoint : Point → Bytes32
  decodeScalar : Bytes → Option Scalar
  /-- `from_le_bytes_mod_order`. -/
  reduceScalar : Bytes → Scalar

/-- The code outside the repository that the program calls. -/
structure Primitives where
  /-- Blake2s-256. -/
  blake2s : Bytes → Bytes32
  /-- ed25519: does this key's signature verify over this message? -/
  verify : Bytes32 → Bytes → FixedBytes 64 → Bool
  orderSort : UnstableSort OrderRef
  curve : Curve

/-! ### A computable instance -/

section Toy

variable {α : Type}

/-- Insertion sort meets the sort's contract. -/
def insertionUnstableSort : UnstableSort α where
  sort le xs := xs.insertionSort fun a b ↦ le a b = true
  perm le xs := List.perm_insertionSort _ xs
  sorted le htotal htrans xs := by
    have : Std.Total fun a b : α ↦ le a b = true :=
      ⟨fun a b ↦ by simpa using htotal a b⟩
    have : IsTrans α fun a b ↦ le a b = true := ⟨htrans⟩
    exact List.pairwise_insertionSort _ xs

/-- The additive group of the integers, with trivial encodings. -/
def toyCurve : Curve where
  Point := ℤ
  Scalar := ℤ
  decEqScalar := inferInstance
  generator := 1
  identity := 0
  add := (· + ·)
  sub := (· - ·)
  smul := (· * ·)
  decodePoint b := some (leValue b)
  encodePoint _ := FixedBytes.ofBytes 32 []
  decodeScalar b := some (leValue b)
  reduceScalar _ := 0

/-- A hash that keeps the length and the first bytes, and a verifier that accepts everything. -/
def Primitives.toy : Primitives where
  blake2s b := FixedBytes.ofBytes 32 (u64Bytes (UInt64.ofNat b.length) ++ b)
  verify _ _ _ := true
  orderSort := insertionUnstableSort
  curve := toyCurve

end Toy

end Jamswap.Engine
