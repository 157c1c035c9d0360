import Jamswap.Engine.Wire

/-!
# Signed messages and verifiable decryption

The two stateless checks refine runs on builder-supplied bytes: an ed25519 signature over a
domain-separated canonical message (`canon`, `orderMsg`, `commitMsg`, `verifySigned`), and a
committee decryption in which every member's partial carries a Chaum-Pedersen proof against that
member's key (`verifyPartial`, `verifyAndDecrypt`).
-/

namespace Jamswap.Engine

open Library

/-! ### Canonical messages -/

/-- `jamswap:v1:<action>` followed by the raw little-endian fields. -/
def canon (action : Bytes) (parts : List Bytes) : Bytes :=
  ascii "jamswap:v1:" ++ action ++ parts.flatten

def boolByte (b : Bool) : UInt8 := if b then 1 else 0

/-- What a trader signs to place an order. The order id is not part of it. -/
def orderMsg (account market : UInt32) (side : UInt8) (qty : UInt32) (isMarket isSealed : Bool)
    (signedPrice : UInt32) (seq : UInt64) : Bytes :=
  canon (ascii "order")
    [u32Bytes account, u32Bytes market, [side], u32Bytes qty, [boolByte isMarket],
      [boolByte isSealed], u32Bytes signedPrice, u64Bytes seq]

/-- What a trader signs to post a sealed order's commitment, in either sealing mode. -/
def commitMsg (market account : UInt32) (commitId : Bytes32) (seq : UInt64) : Bytes :=
  canon (ascii "commit") [u32Bytes market, u32Bytes account, commitId.val, u64Bytes seq]

/-- A signature over the message itself, or over the framing that wallets add. -/
def verifySigned (P : Primitives) (pubkey : Bytes32) (msg : Bytes) (sig : FixedBytes 64) : Bool :=
  P.verify pubkey msg sig ||
    P.verify pubkey (ascii "<Bytes>" ++ msg ++ ascii "</Bytes>") sig

/-! ### Verifiable decryption -/

def pointLen : ℕ := 32

def scalarLen : ℕ := 32

/-- S_i ‖ e ‖ z. -/
def partialLen : ℕ := pointLen + scalarLen + scalarLen

section Decryption

variable (P : Primitives)

def dePoint (b : Bytes) : Option P.curve.Point :=
  if b.length < pointLen then none else P.curve.decodePoint (slice b 0 pointLen)

def deScalar (b : Bytes) : Option P.curve.Scalar :=
  if b.length < scalarLen then none else P.curve.decodeScalar (slice b 0 scalarLen)

/-- Keystream of `len` bytes from a shared point: hashed blocks under a counter. -/
def kdf (shared : P.curve.Point) (len : ℕ) : Bytes :=
  ((List.range ((len + 31) / 32)).flatMap fun ctr ↦
    (P.blake2s (ascii "vdec-kdf" ++ (P.curve.encodePoint shared).val ++
      u32Bytes (UInt32.ofNat ctr))).val).take len

/-- The Fiat-Shamir challenge, bound to the four points and the prover's commitments. -/
def challenge (pk c1 s t1 t2 : P.curve.Point) : P.curve.Scalar :=
  P.curve.reduceScalar
    ((P.blake2s (ascii "vdec-cp" ++ (P.curve.encodePoint P.curve.generator).val ++
      (P.curve.encodePoint pk).val ++ (P.curve.encodePoint c1).val ++ (P.curve.encodePoint s).val ++
      (P.curve.encodePoint t1).val ++ (P.curve.encodePoint t2).val)).val ++ List.replicate 32 0)

/-- One member's partial, checked against that member's key. -/
def verifyPartial (c1Bytes pkBytes part : Bytes) : Option P.curve.Point :=
  haveI := P.curve.decEqScalar
  if part.length < partialLen then none
  else do
    let c1 ← dePoint P c1Bytes
    let pk ← dePoint P pkBytes
    let s ← dePoint P (slice part 0 pointLen)
    let e ← deScalar P (slice part pointLen (pointLen + scalarLen))
    let z ← deScalar P (part.drop (pointLen + scalarLen))
    let t1 := P.curve.sub (P.curve.smul P.curve.generator z) (P.curve.smul pk e)
    let t2 := P.curve.sub (P.curve.smul c1 z) (P.curve.smul s e)
    if challenge P pk c1 s t1 t2 = e then some s else none

/-- Sum the proven shares of a committee, or fail on the first bad proof. -/
def sumPartials (c1Bytes : Bytes) : List (Bytes32 × Bytes) → P.curve.Point → Option P.curve.Point
  | [], acc => some acc
  | (pk, part) :: rest, acc =>
    match verifyPartial P c1Bytes pk.val part with
    | none => none
    | some s => sumPartials c1Bytes rest (P.curve.add acc s)

/-- Recover one ciphertext's plaintext, or `none` if any member's proof fails. -/
def verifyAndDecrypt (c1Bytes body : Bytes) (committeePks : List Bytes32) (partials : Bytes) :
    Option Bytes :=
  let n := committeePks.length
  if n = 0 ∨ partials.length ≠ n * partialLen then none
  else do
    let shared ← sumPartials P c1Bytes (committeePks.zip (records partialLen partials))
      P.curve.identity
    let ks := kdf P shared body.length
    return List.zipWith (· ^^^ ·) body ks

/-- A decryption that succeeds rests on one verified partial per committee member. -/
theorem sumPartials_verified {c1Bytes : Bytes} {members : List (Bytes32 × Bytes)}
    {acc total : P.curve.Point} (h : sumPartials P c1Bytes members acc = some total) :
    ∀ member ∈ members, ∃ s, verifyPartial P c1Bytes member.1.val member.2 = some s := by
  induction members generalizing acc with
  | nil =>
    intro member hmember
    cases hmember
  | cons m members ih =>
    obtain ⟨pk, part⟩ := m
    rw [sumPartials] at h
    cases hverify : verifyPartial P c1Bytes pk.val part with
    | none =>
      rw [hverify] at h
      cases h
    | some s =>
      rw [hverify] at h
      intro member hmember
      rcases List.mem_cons.mp hmember with rfl | hrest
      · exact ⟨s, hverify⟩
      · exact ih h member hrest

theorem verifyAndDecrypt_verified {c1Bytes body partials plain : Bytes} {pks : List Bytes32}
    (h : verifyAndDecrypt P c1Bytes body pks partials = some plain) :
    pks ≠ [] ∧ partials.length = pks.length * partialLen ∧
      ∀ member ∈ pks.zip (records partialLen partials),
        ∃ s, verifyPartial P c1Bytes member.1.val member.2 = some s := by
  simp only [verifyAndDecrypt] at h
  split_ifs at h with hbad
  rw [not_or, not_not] at hbad
  obtain ⟨shared, hshared, -⟩ := Option.bind_eq_some_iff.mp h
  refine ⟨?_, hbad.2, sumPartials_verified P hshared⟩
  rintro rfl
  exact hbad.1 rfl

end Decryption

end Jamswap.Engine
