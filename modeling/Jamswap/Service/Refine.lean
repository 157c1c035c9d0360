import Jamswap.Service.StateRules

/-!
# Refine: the stateless half of the service

Refine turns a work-item payload into a work output, reading no storage. Signed operations are
verified and re-emitted with the signature replaced by the key that made it (`authenticate`);
rounds are parsed (`smatchInput`, `revealInput`, `encRoundInput`), cleared at one price and emitted
with everything accumulate needs to finish the verification (`smatchOutput`, `revealOutput`,
`encRoundOutput`). Empty output means the item is dropped.
-/

namespace Jamswap.Service

open Library Engine

/-- Payload and output tags. Tag 0 is retired. -/
inductive Tag
  | deposit
  | commit
  | reveal
  | cancel
  | withdraw
  | list
  | register
  | treasury
  | encSetup
  | encCommit
  | encRound
  | smatch
  | carryCommit
  | carryEncCommit
  deriving DecidableEq, Repr

def Tag.byte : Tag → UInt8
  | .deposit => 1
  | .commit => 2
  | .reveal => 3
  | .cancel => 4
  | .withdraw => 5
  | .list => 6
  | .register => 7
  | .treasury => 8
  | .encSetup => 9
  | .encCommit => 10
  | .encRound => 11
  | .smatch => 12
  | .carryCommit => 13
  | .carryEncCommit => 14

def Tag.ofByte (x : UInt8) : Option Tag :=
  match x with
  | 1 => some .deposit
  | 2 => some .commit
  | 3 => some .reveal
  | 4 => some .cancel
  | 5 => some .withdraw
  | 6 => some .list
  | 7 => some .register
  | 8 => some .treasury
  | 9 => some .encSetup
  | 10 => some .encCommit
  | 11 => some .encRound
  | 12 => some .smatch
  | 13 => some .carryCommit
  | 14 => some .carryEncCommit
  | _ => none

@[simp] theorem Tag.ofByte_byte (t : Tag) : Tag.ofByte t.byte = some t := by
  cases t <;> rfl

/-- The governance key: sweeps the treasury and sets the committee. -/
def govPubkey : Bytes32 := FixedBytes.ofBytes 32
  [0x37, 0x42, 0x87, 0x63, 0x4e, 0x12, 0x9e, 0xc1, 0xf7, 0x2c, 0x75, 0x08, 0xa1, 0x30, 0xa6, 0xf4,
    0xae, 0x2c, 0x14, 0x56, 0xc9, 0x28, 0x0f, 0xe5, 0x2e, 0xaa, 0x4f, 0x22, 0x54, 0xf7, 0xe6, 0xca]

/-- Flat fee per introduced order, in the base asset. -/
def feeFlat : UInt64 := 300

/-- The treasury's account, `u32::MAX`. -/
def feeAccount : UInt32 := UInt32.ofNat (2 ^ 32 - 1)

/-- Fixed-point price scale. -/
def scale : UInt32 := 10000

/-- Percent a market order's price may sit from the last price. -/
def marketBandPct : ℕ := 10

def nonceLen : ℕ := 32

/-- order(17) ‖ nonce(32). -/
def revealLen : ℕ := orderLen + nonceLen

def withdrawBody : ℕ := 1 + 4 + 4 + 8 + 8

def cancelBody : ℕ := 1 + 4 + 4 + 4 + 8

def commitBody : ℕ := 1 + 4 + 4 + 32 + 8

/-- End of `[tag][market][C1][body]`. -/
def encCtEnd : ℕ := 5 + pointLen + orderLen

def encCommitBody : ℕ := encCtEnd + 4 + 8

def treasuryBody : ℕ := 1 + 4 + 8 + 4 + 8

def commitment (P : Primitives) (b : Bytes) : Bytes32 := P.blake2s b

def committeeHash (P : Primitives) (blob : Bytes) : Bytes32 := commitment P blob

/-! ### Signed operations -/

def sig64 (b : Bytes) (off : ℕ) : FixedBytes 64 := FixedBytes.ofBytes 64 (slice b off (off + 64))

/-- `[body][sig][pk]` becomes `[body][pk]` when the signature verifies. -/
def accountSigned (P : Primitives) (data : Bytes) (body : ℕ) (msg : Bytes → Bytes) :
    Option Bytes :=
  if data.length ≠ body + 64 + 32 then none
  else
    let pk : Bytes32 := FixedBytes.ofBytes 32 (data.drop (body + 64))
    if verifySigned P pk (msg (slice data 0 body)) (sig64 data body) then
      some (slice data 0 body ++ pk.val)
    else none

/-- `[body][sig]` becomes `[body]` when the signature verifies under the governance key. -/
def govSigned (P : Primitives) (data : Bytes) (body : ℕ) (msg : Bytes → Bytes) : Option Bytes :=
  if data.length ≠ body + 64 ∨
      verifySigned P govPubkey (msg (slice data 0 body)) (sig64 data body) = false then none
  else some (slice data 0 body)

/-- The refine side of every signed operation; `none` drops it. -/
def authenticate (P : Primitives) (tag : Tag) (data : Bytes) : Option Bytes :=
  match tag with
  | .withdraw => accountSigned P data withdrawBody fun b ↦
      canon (ascii "withdraw") [slice b 1 5, slice b 5 9, slice b 9 17, slice b 17 25]
  | .cancel => accountSigned P data cancelBody fun b ↦
      canon (ascii "cancel") [slice b 1 5, slice b 5 9, slice b 9 13, slice b 13 21]
  | .commit => accountSigned P data commitBody fun b ↦
      commitMsg (u32At b 1) (u32At b 5) (FixedBytes.ofBytes 32 (slice b 9 41)) (u64At b 41)
  | .encCommit => accountSigned P data encCommitBody fun b ↦
      commitMsg (u32At b 1) (u32At b encCtEnd) (commitment P (slice b 5 encCtEnd))
        (u64At b (encCtEnd + 4))
  | .register =>
    if data.length = 1 + 32 + 64 then
      let pk : Bytes32 := FixedBytes.ofBytes 32 (slice data 1 33)
      if verifySigned P pk (canon (ascii "register") [pk.val]) (sig64 data 33) then
        some (slice data 0 33)
      else none
    else none
  | .treasury => govSigned P data treasuryBody fun b ↦
      canon (ascii "treasury") [slice b 1 5, slice b 5 13, slice b 13 17, slice b 17 25]
  | .encSetup =>
    if 2 ≤ data.length then
      let pksEnd := 2 + (byteAt data 1).toNat * 32
      govSigned P data (pksEnd + 8) fun b ↦
        canon (ascii "committee") [slice b 1 2, slice b 2 pksEnd, b.drop pksEnd]
    else none
  | _ => none

/-! ### The signed public section -/

structure PublicSection where
  /-- the on-chain resting book minus the pruned entries -/
  book : List Order
  /-- signature-verified new orders, in submission order, each with its binding -/
  admitted : List (Order × Binding)
  /-- hash of the raw input book -/
  bookHash : Bytes32
  deriving DecidableEq

def PublicSection.newOrders (ps : PublicSection) : List Order := ps.admitted.map Prod.fst

def PublicSection.bindings (ps : PublicSection) : List Binding := ps.admitted.map Prod.snd

/-- Verify one signed order: never a sealed one, a limit order at its signed price, and a signature
over the canonical message for this market. -/
def admitSigned (P : Primitives) (market : UInt32) (s : SignedOrder) : Option (Order × Binding) :=
  let isMarket := hasFlag s.flags flagMarket
  if hasFlag s.flags flagSealed then none
  else if !isMarket && s.order.price != s.signedPrice then none
  else
    let msg := orderMsg s.order.account market s.order.side.byte s.order.qty isMarket false
      s.signedPrice s.seq
    if verifySigned P s.pubkey msg s.sig then
      some (s.order, ⟨s.order.account, s.seq, s.pubkey, s.flags, s.order.price⟩)
    else none

/-- Is this resting order on the builder's prune list? -/
def isPruned (pruned : Bytes) (o : Order) : Bool :=
  (records 8 pruned).any fun e ↦ o.account == u32At e 0 && o.id == u32At e 4

/-- `[ns:u16] signed orders, [np:u16] prune list, book bytes`, from offset `off`. -/
def parsePublicSection (P : Primitives) (data : Bytes) (off : ℕ) (market : UInt32) :
    Option PublicSection := do
  let ns := (u16At (← sub? data off (off + 2)) 0).toNat
  let off := off + 2
  let sblob ← sub? data off (off + ns * signedOrderLen)
  let off := off + ns * signedOrderLen
  let signed := decodeSignedOrders sblob
  if signed.length ≠ ns then none
  else
    let admitted ← signed.mapM (admitSigned P market)
    let np := (u16At (← sub? data off (off + 2)) 0).toNat
    let off := off + 2
    let pruned ← sub? data off (off + np * 8)
    let off := off + np * 8
    let bookBytes ← suffix? data off
    return {
      book := (decodeOrders bookBytes).filter fun o ↦ !isPruned pruned o
      admitted
      bookHash := commitment P bookBytes }

/-! ### Rounds as refine sees them -/

/-- A sealed order opened this round, with the set entry it consumes: id(32) ‖ account(4). -/
structure Opened where
  order : Order
  entry : Bytes
  deriving DecidableEq

/-- The three round types, with what each opens; an encrypted round carries the committee blob
`[n][pks]` its partials were checked against. -/
inductive RoundKind
  | smatch
  | reveal (opened : List Opened)
  | encRound (committee : Bytes) (opened : List Opened)
  deriving DecidableEq

def RoundKind.opened : RoundKind → List Opened
  | .smatch => []
  | .reveal opened => opened
  | .encRound _ opened => opened

/-- A parsed round. -/
structure RoundInput where
  kind : RoundKind
  market : UInt32
  base : UInt32
  quote : UInt32
  ps : PublicSection
  deriving DecidableEq

def RoundInput.sealedOrders (r : RoundInput) : List Order := r.kind.opened.map Opened.order

def RoundInput.consumed (r : RoundInput) : Bytes := r.kind.opened.flatMap Opened.entry

/-- The public orders of a round: the book, then the new orders. -/
def RoundInput.publicOrders (r : RoundInput) : List Order := r.ps.book ++ r.ps.newOrders

/-- The orders cleared together: book, then new public orders, then sealed orders. -/
def RoundInput.orders (r : RoundInput) : List Order := r.publicOrders ++ r.sealedOrders

def smatchInput (P : Primitives) (data : Bytes) : Option RoundInput :=
  if 13 ≤ data.length then do
    let market := u32At data 1
    let ps ← parsePublicSection P data 13 market
    return { kind := .smatch, market, base := u32At data 5, quote := u32At data 9, ps }
  else none

/-- A reveal whose hash is among the supplied commitments: its order, and the entry it consumes. -/
def admitReveal (P : Primitives) (commits reveal : Bytes) : Option Opened :=
  let h := commitment P reveal
  if (records 32 commits).contains h.val then
    (decodeOrders (slice reveal 0 orderLen)).head?.map fun o ↦ ⟨o, h.val ++ u32Bytes o.account⟩
  else none

def revealInput (P : Primitives) (data : Bytes) : Option RoundInput :=
  if 17 ≤ data.length then
    let cl := (u32At data 13).toNat
    if data.length < 21 + cl then none
    else
      let market := u32At data 1
      let commits := slice data 17 (17 + cl)
      let rl := (u32At data (17 + cl)).toNat
      let revealsOff := 21 + cl
      if data.length < revealsOff + rl then none
      else do
        let reveals := slice data revealsOff (revealsOff + rl)
        let ps ← parsePublicSection P data (revealsOff + rl) market
        let verified := (records revealLen reveals).filterMap (admitReveal P commits)
        return { kind := .reveal verified, market, base := u32At data 5, quote := u32At data 9, ps }
  else none

/-- `m` ciphertexts `[C1][body_len][body]` from offset `off`, and the offset after them. -/
def parseCiphertexts (data : Bytes) : ℕ → ℕ → Option (List (Bytes × Bytes) × ℕ)
  | 0, off => some ([], off)
  | m + 1, off => do
    let c1 ← sub? data off (off + pointLen)
    let bodyLen := (← data[off + pointLen]?).toNat
    let body ← sub? data (off + pointLen + 1) (off + pointLen + 1 + bodyLen)
    let rest ← parseCiphertexts data m (off + pointLen + 1 + bodyLen)
    return ((c1, body) :: rest.1, rest.2)

/-- Decrypt one ciphertext under the committee keys: its order, and the entry it consumes. -/
def admitCiphertext (P : Primitives) (pks : List Bytes32) (ciphertext : (Bytes × Bytes) × Bytes) :
    Option Opened := do
  let c1 := ciphertext.1.1
  let body := ciphertext.1.2
  let orderBytes ← verifyAndDecrypt P c1 body pks ciphertext.2
  let o ← (decodeOrders orderBytes).head?
  return ⟨o, (commitment P (c1 ++ body)).val ++ u32Bytes o.account⟩

/-- The member keys of a committee blob `[n][pks]`. -/
def committeeKeys (blob : Bytes) : List Bytes32 :=
  (records pointLen (blob.drop 1)).map (FixedBytes.ofBytes 32)

def encRoundInput (P : Primitives) (data : Bytes) : Option RoundInput := do
  let n := (← data[13]?).toNat
  if n = 0 then none
  else
    let market := u32At data 1
    let off := 14
    let pksBlob ← sub? data off (off + n * pointLen)
    let blob := UInt8.ofNat n :: pksBlob
    let off := off + n * pointLen
    let m := (u16At (← sub? data off (off + 2)) 0).toNat
    let off := off + 2
    let parsed ← parseCiphertexts data m off
    let ciphertexts := parsed.1
    let off := parsed.2
    let partialsBlob ← sub? data off (off + m * n * partialLen)
    let off := off + m * n * partialLen
    let ps ← parsePublicSection P data off market
    let opened ← (ciphertexts.zip (records (n * partialLen) partialsBlob)).mapM
      (admitCiphertext P (committeeKeys blob))
    return { kind := .encRound blob opened, market, base := u32At data 5, quote := u32At data 9,
             ps }

/-! ### Clearing a round -/

/-- What clearing a round produces: the settlement section, the accounts with a sealed remainder,
and the new book. -/
structure RoundClearing where
  settle : Bytes
  carry : List UInt32
  book : Bytes
  deriving DecidableEq

/-- Everything clears together. A remainder whose id is that of a sealed order goes to the carry
list, every other remainder rests on the public book. -/
def clearRound (P : Primitives) (ps : PublicSection) (sealedOrders : List Order) : RoundClearing :=
  let all := ps.book ++ ps.newOrders ++ sealedOrders
  let c := clear P all
  let rest := resting all c
  let isSealed : Order → Bool := fun o ↦ sealedOrders.any fun s ↦ s.id == o.id
  { settle := encodeSettlement c.price all c
    carry := (rest.filter isSealed).map Order.account
    book := encodeOrders (rest.filter fun o ↦ !isSealed o) }

/-- `[tag][market][base][quote][settle_len][settle]`, the start of every round output. -/
def roundHeader (tag : Tag) (market base quote : UInt32) (settle : Bytes) : Bytes :=
  [tag.byte] ++ u32Bytes market ++ u32Bytes base ++ u32Bytes quote ++
    u32Bytes (UInt32.ofNat settle.length) ++ settle

/-- `[ncar:u16][carry accounts]`. -/
def carrySection (carry : List UInt32) : Bytes :=
  u16Bytes (UInt16.ofNat carry.length) ++ carry.flatMap u32Bytes

def smatchOutput (P : Primitives) (market base quote : UInt32) (ps : PublicSection)
    (rid : Bytes32) : Bytes :=
  let r := clearRound P ps []
  roundHeader .smatch market base quote r.settle ++
    pushAuthTrailer ps.bindings ps.bookHash rid r.book

def revealOutput (P : Primitives) (market base quote : UInt32) (ps : PublicSection)
    (sealedOrders : List Order) (consumed : Bytes) (rid : Bytes32) : Bytes :=
  let r := clearRound P ps sealedOrders
  roundHeader .reveal market base quote r.settle ++
    u32Bytes (UInt32.ofNat consumed.length) ++ consumed ++
    carrySection r.carry ++ pushAuthTrailer ps.bindings ps.bookHash rid r.book

def encRoundOutput (P : Primitives) (market base quote : UInt32) (ps : PublicSection)
    (sealedOrders : List Order) (consumed : Bytes) (committeeH rid : Bytes32) : Bytes :=
  let r := clearRound P ps sealedOrders
  roundHeader .encRound market base quote r.settle ++
    u32Bytes (UInt32.ofNat consumed.length) ++ consumed ++ committeeH.val ++
    carrySection r.carry ++ pushAuthTrailer ps.bindings ps.bookHash rid r.book

def RoundInput.output (P : Primitives) (r : RoundInput) (rid : Bytes32) : Bytes :=
  match r.kind with
  | .smatch => smatchOutput P r.market r.base r.quote r.ps rid
  | .reveal _ => revealOutput P r.market r.base r.quote r.ps r.sealedOrders r.consumed rid
  | .encRound committee _ =>
    encRoundOutput P r.market r.base r.quote r.ps r.sealedOrders r.consumed
      (committeeHash P committee) rid

/-- The round a payload carries, if it is a round and refine accepts it. -/
def roundInput (P : Primitives) (data : Bytes) : Option RoundInput :=
  match data.head?.bind Tag.ofByte with
  | some .smatch => smatchInput P data
  | some .reveal => revealInput P data
  | some .encRound => encRoundInput P data
  | _ => none

/-- Refine: payload to work output, the empty output dropping the item. -/
def refine (P : Primitives) (data : Bytes) : Bytes :=
  match data.head?.bind Tag.ofByte with
  | none => []
  | some .smatch | some .reveal | some .encRound =>
    match roundInput P data with
    | some r => r.output P (roundId P data)
    | none => []
  | some .deposit | some .list | some .carryCommit | some .carryEncCommit => data
  | some tag => (authenticate P tag data).getD []

end Jamswap.Service
