import Jamswap.Service.Accumulate

/-!
# Signed operations

Every signature refine verifies is over the canonical message of an operation: of the one in the
payload (`authenticate_eq_some_iff`), or of an order (`isSome_admitSigned_iff`). The messages have
no separators and no lengths, one action's name is a prefix of another's, and the committee's
message is as long as its signer likes. The first two letters of the action and the length modulo 32
still tell the actions apart (`markOf_message`), and within an action the fields have fixed widths,
so the message determines the operation (`signed_messages_unambiguous`).
-/

namespace Jamswap.Service

open Library Engine

/-- The actions of signed messages. -/
inductive Action
  | order
  | commit
  | withdraw
  | cancel
  | register
  | treasury
  | committee
  deriving DecidableEq

def Action.name : Action → Bytes
  | .order => ascii "order"
  | .commit => ascii "commit"
  | .withdraw => ascii "withdraw"
  | .cancel => ascii "cancel"
  | .register => ascii "register"
  | .treasury => ascii "treasury"
  | .committee => ascii "committee"

/-- An operation with the fields its signer signs. A commit id is a commitment or a ciphertext id; a
committee has at most 255 keys, the count being one byte. -/
inductive SignedOp
  | order (account market : UInt32) (side : UInt8) (qty : UInt32) (isMarket isSealed : Bool)
      (signedPrice : UInt32) (seq : UInt64)
  | commit (market account : UInt32) (commitId : Bytes32) (seq : UInt64)
  | withdraw (handle asset : UInt32) (amount nonce : UInt64)
  | cancel (handle market oid : UInt32) (nonce : UInt64)
  | register (pubkey : Bytes32)
  | treasury (asset : UInt32) (amount : UInt64) (dest : UInt32) (nonce : UInt64)
  | committee (pks : { pks : List Bytes32 // pks.length ≤ 255 }) (nonce : UInt64)

namespace SignedOp

def action : SignedOp → Action
  | .order .. => .order
  | .commit .. => .commit
  | .withdraw .. => .withdraw
  | .cancel .. => .cancel
  | .register .. => .register
  | .treasury .. => .treasury
  | .committee .. => .committee

def fields : SignedOp → List Bytes
  | .order account market side qty isMarket isSealed signedPrice seq =>
    [u32Bytes account, u32Bytes market, [side], u32Bytes qty, [boolByte isMarket],
      [boolByte isSealed], u32Bytes signedPrice, u64Bytes seq]
  | .commit market account commitId seq =>
    [u32Bytes market, u32Bytes account, commitId.val, u64Bytes seq]
  | .withdraw handle asset amount nonce =>
    [u32Bytes handle, u32Bytes asset, u64Bytes amount, u64Bytes nonce]
  | .cancel handle market oid nonce =>
    [u32Bytes handle, u32Bytes market, u32Bytes oid, u64Bytes nonce]
  | .register pubkey => [pubkey.val]
  | .treasury asset amount dest nonce =>
    [u32Bytes asset, u64Bytes amount, u32Bytes dest, u64Bytes nonce]
  | .committee pks nonce =>
    [[UInt8.ofNat pks.val.length], pks.val.flatMap Subtype.val, u64Bytes nonce]

/-- The message the signer signs. -/
def message (op : SignedOp) : Bytes := canon op.action.name op.fields

end SignedOp

/-- The framing that wallets add. -/
def framed (msg : Bytes) : Bytes := ascii "<Bytes>" ++ msg ++ ascii "</Bytes>"

/-! ### The message determines the action -/

/-- What a message shows of its action: two letters, and the length modulo 32. -/
def markOf (msg : Bytes) : UInt8 × UInt8 × ℕ := (byteAt msg 11, byteAt msg 12, msg.length % 32)

def Action.mark : Action → UInt8 × UInt8 × ℕ
  | .order => (111, 114, 11)
  | .commit => (99, 111, 1)
  | .withdraw => (119, 105, 11)
  | .cancel => (99, 97, 5)
  | .register => (114, 101, 19)
  | .treasury => (116, 114, 11)
  | .committee => (99, 111, 29)

theorem Action.mark_injective : Function.Injective Action.mark := by
  intro a b
  cases a <;> cases b <;> decide

theorem length_canon (action : Bytes) (parts : List Bytes) :
    (canon action parts).length = 11 + action.length + parts.flatten.length := by
  rw [canon, List.length_append, List.length_append]
  rfl

theorem length_flatMap_pks (pks : List Bytes32) :
    (pks.flatMap Subtype.val).length = pks.length * 32 :=
  length_flatMap_of_width _ FixedBytes.length_val pks

theorem markOf_message (op : SignedOp) : markOf op.message = op.action.mark := by
  cases op with
  | committee pks nonce =>
    refine Prod.ext rfl (Prod.ext rfl ?_)
    show (canon _ _).length % 32 = 29
    rw [length_canon]
    simp only [SignedOp.fields, SignedOp.action, Action.name, List.flatten_cons, List.flatten_nil,
      List.length_append, length_flatMap_pks, length_u64Bytes, List.length_singleton,
      List.append_nil]
    show (11 + 9 + (1 + (pks.val.length * 32 + 8))) % 32 = 29
    omega
  | _ =>
    refine Prod.ext rfl (Prod.ext rfl ?_)
    show (canon _ _).length % 32 = _
    rw [length_canon]
    simp [SignedOp.fields, SignedOp.action, Action.name, Action.mark, ascii]

/-! ### The message determines the fields -/

theorem boolByte_inj {a b : Bool} : boolByte a = boolByte b ↔ a = b := by
  cases a <;> cases b <;> decide

theorem flatMap_pks_injective {pks pks' : List Bytes32}
    (h : pks.flatMap Subtype.val = pks'.flatMap Subtype.val) : pks = pks' := by
  have hread : ∀ pks : List Bytes32, records 32 (pks.flatMap Subtype.val) = pks.map Subtype.val :=
    fun pks ↦ records_flatMap (by decide) _ FixedBytes.length_val pks
  have hrecords := congrArg (records 32) h
  rw [hread, hread] at hrecords
  exact List.map_injective_iff.mpr (fun _ _ ↦ Subtype.ext) hrecords

theorem SignedOp.eq_of_fields {op op' : SignedOp} (haction : op.action = op'.action)
    (hfields : op.fields.flatten = op'.fields.flatten) : op = op' := by
  cases op with
  | register =>
    cases op' with
    | register =>
      simp only [fields, List.flatten_cons, FixedBytes.val_append_inj] at hfields
      rw [hfields.1]
    | _ => cases haction
  | committee pks nonce =>
    cases op' with
    | committee pks' nonce' =>
      simp only [fields, List.flatten_cons, List.flatten_nil, List.cons_append, List.nil_append,
        List.cons.injEq] at hfields
      obtain ⟨hcount, hfields⟩ := hfields
      -- the count byte tells how far the keys go
      have hcount := congrArg UInt8.toNat hcount
      have hpks := pks.property
      have hpks' := pks'.property
      rw [UInt8.toNat_ofNat', UInt8.toNat_ofNat', Nat.mod_eq_of_lt (by omega),
        Nat.mod_eq_of_lt (by omega)] at hcount
      obtain ⟨hkeys, hnonce⟩ := List.append_inj hfields
        (by rw [length_flatMap_pks, length_flatMap_pks, hcount])
      rw [Subtype.ext (flatMap_pks_injective hkeys), (u64Bytes_append_inj.mp hnonce).1]
    | _ => cases haction
  | _ =>
    cases op' <;> cases haction
    -- the fields of every other operation have fixed widths, so each is read off in its place
    simp only [fields, List.flatten_cons, List.flatten_nil, List.cons_append, List.nil_append,
      List.cons.injEq, u32Bytes_append_inj, u64Bytes_append_inj, FixedBytes.val_append_inj,
      boolByte_inj] at hfields
    simp only [hfields]

theorem SignedOp.message_injective : Function.Injective SignedOp.message := by
  intro op op' h
  have haction : op.action = op'.action := Action.mark_injective (by
    rw [← markOf_message, ← markOf_message, h])
  refine SignedOp.eq_of_fields haction ?_
  rw [SignedOp.message, SignedOp.message, haction, canon, canon] at h
  exact List.append_cancel_left h

/-- A message starts with `j`, a framed one with `<`. -/
theorem SignedOp.message_ne_framed (op : SignedOp) (msg : Bytes) : op.message ≠ framed msg := by
  intro h
  have hfirst := congrArg List.head? h
  have hmessage : op.message.head? = some 106 := rfl
  have hframed : (framed msg).head? = some 60 := rfl
  rw [hmessage, hframed] at hfirst
  exact absurd hfirst (by decide)

theorem framed_injective : Function.Injective framed := by
  intro msg msg' h
  exact List.append_cancel_left (List.append_cancel_right h)

/-! ### What refine verifies -/

/-- The keys of a committee setup. -/
def committeePks (data : Bytes) : List Bytes32 :=
  (records 32 (slice data 2 (2 + (byteAt data 1).toNat * 32))).map (FixedBytes.ofBytes 32)

/-- The operation a payload asks for. -/
def SignedOp.ofPayload (P : Primitives) (tag : Tag) (data : Bytes) : Option SignedOp :=
  match tag with
  | .withdraw => some (.withdraw (u32At data 1) (u32At data 5) (u64At data 9) (u64At data 17))
  | .cancel => some (.cancel (u32At data 1) (u32At data 5) (u32At data 9) (u64At data 13))
  | .commit => some (.commit (u32At data 1) (u32At data 5)
      (FixedBytes.ofBytes 32 (slice data 9 41)) (u64At data 41))
  | .encCommit => some (.commit (u32At data 1) (u32At data encCtEnd)
      (commitment P (slice data 5 encCtEnd)) (u64At data (encCtEnd + 4)))
  | .register => some (.register (FixedBytes.ofBytes 32 (slice data 1 33)))
  | .treasury => some (.treasury (u32At data 1) (u64At data 5) (u32At data 13) (u64At data 17))
  | .encSetup =>
    if h : (committeePks data).length ≤ 255 then
      some (.committee ⟨committeePks data, h⟩ (u64At data (2 + (byteAt data 1).toNat * 32)))
    else none
  | _ => none

/-- The order a trader asks for on the market. -/
def SignedOp.ofOrder (market : UInt32) (s : SignedOrder) : SignedOp :=
  .order s.order.account market s.order.side.byte s.order.qty (hasFlag s.flags flagMarket) false
    s.signedPrice s.seq

/-- How much of a payload is signed; the signature follows. -/
def signedBody (tag : Tag) (data : Bytes) : ℕ :=
  match tag with
  | .withdraw => withdrawBody
  | .cancel => cancelBody
  | .commit => commitBody
  | .encCommit => encCommitBody
  | .register => 1 + 32
  | .treasury => treasuryBody
  | .encSetup => 2 + (byteAt data 1).toNat * 32 + 8
  | _ => 0

/-- What follows the signature: the signer's key, unless it is the registered one or that of
governance. -/
def signerLen : Tag → ℕ
  | .register | .treasury | .encSetup => 0
  | _ => 32

/-- The key the signature is verified under. -/
def signedKey (tag : Tag) (data : Bytes) : Bytes32 :=
  match tag with
  | .register => FixedBytes.ofBytes 32 (slice data 1 33)
  | .treasury | .encSetup => govPubkey
  | _ => FixedBytes.ofBytes 32 (data.drop (signedBody tag data + 64))

/-- What refine passes on of a payload: its body, and the signer's key if that follows the
signature. -/
def passedOn (tag : Tag) (data : Bytes) : Bytes :=
  data.take (signedBody tag data) ++ (signedKey tag data).val.take (signerLen tag)

/-- The payload carries a signature of this operation. -/
def SignedOp.SignedIn (P : Primitives) (tag : Tag) (data : Bytes) (op : SignedOp) : Prop :=
  SignedOp.ofPayload P tag data = some op ∧
    verifySigned P (signedKey tag data) op.message (sig64 data (signedBody tag data)) = true

section Authenticate

variable {P : Primitives} {tag : Tag} {data out : Bytes} {body : ℕ} {msg : Bytes → Bytes}

/-- The fields of a signed body are those of the payload. -/
theorem u32At_take {i n : ℕ} (h : i + 4 ≤ n) : u32At (data.take n) i = u32At data i := by
  rw [u32At, u32At, slice_take _ h]

theorem u64At_take {i n : ℕ} (h : i + 8 ≤ n) : u64At (data.take n) i = u64At data i := by
  rw [u64At, u64At, slice_take _ h]

theorem slice_take_u32 {i n : ℕ} (h : i + 4 ≤ n) (hlen : n ≤ data.length) :
    slice (data.take n) i (i + 4) = u32Bytes (u32At data i) := by
  rw [slice_take _ h, u32Bytes_u32At (h.trans hlen)]

theorem slice_take_u64 {i n : ℕ} (h : i + 8 ≤ n) (hlen : n ≤ data.length) :
    slice (data.take n) i (i + 8) = u64Bytes (u64At data i) := by
  rw [slice_take _ h, u64Bytes_u64At (h.trans hlen)]

theorem exists_signedIn_iff {op : SignedOp} (hop : SignedOp.ofPayload P tag data = some op) :
    (∃ op : SignedOp, op.SignedIn P tag data) ↔
      verifySigned P (signedKey tag data) op.message (sig64 data (signedBody tag data)) = true := by
  simp only [SignedOp.SignedIn, hop, Option.some.injEq, exists_eq_left']

/-- The check of `[body][sig][pk]`, for the operation whose message it makes. -/
theorem accountSigned_eq_some_iff (tag : Tag) (hbody : signedBody tag data = body)
    (hsigner : signerLen tag = 32)
    (hkey : signedKey tag data = FixedBytes.ofBytes 32 (data.drop (body + 64)))
    (hmsg : body ≤ data.length →
      ∃ op, SignedOp.ofPayload P tag data = some op ∧ msg (data.take body) = op.message) :
    accountSigned P data body msg = some out ↔
      data.length = signedBody tag data + 64 + signerLen tag ∧
      (∃ op : SignedOp, op.SignedIn P tag data) ∧ out = passedOn tag data := by
  have hslice : slice data 0 body = data.take body := rfl
  have hpassed : passedOn tag data =
      data.take body ++ (FixedBytes.ofBytes 32 (data.drop (body + 64))).val := by
    rw [passedOn, hkey, hbody, hsigner, List.take_of_length_le (FixedBytes.length_val _).le]
  rw [hbody, hsigner, hpassed]
  simp only [accountSigned, hslice]
  split_ifs with hlen hsigned
  · simp [hlen]
  all_goals
    obtain ⟨op, hop, hop'⟩ := hmsg (by omega)
    rw [exists_signedIn_iff hop, hkey, hbody, ← hop']
    simp [not_not.mp hlen, hsigned, eq_comm]

/-- The check of `[body][sig]` under the key of governance. -/
theorem govSigned_eq_some_iff (tag : Tag) (hbody : signedBody tag data = body)
    (hsigner : signerLen tag = 0) (hkey : signedKey tag data = govPubkey)
    (hmsg : body ≤ data.length →
      ∃ op, SignedOp.ofPayload P tag data = some op ∧ msg (data.take body) = op.message) :
    govSigned P data body msg = some out ↔
      data.length = signedBody tag data + 64 + signerLen tag ∧
      (∃ op : SignedOp, op.SignedIn P tag data) ∧ out = passedOn tag data := by
  have hslice : slice data 0 body = data.take body := rfl
  have hpassed : passedOn tag data = data.take body := by
    rw [passedOn, hbody, hsigner, List.take_zero, List.append_nil]
  rw [hbody, hsigner, hpassed, Nat.add_zero]
  by_cases hlen : data.length = body + 64
  · obtain ⟨op, hop, hop'⟩ := hmsg (by omega)
    rw [exists_signedIn_iff hop, hkey, hbody, ← hop', govSigned, hslice]
    split_ifs with hbad
    · simp [(hbad.resolve_left (not_not.mpr hlen))]
    · rw [not_or, not_not, Bool.not_eq_false] at hbad
      simp [hlen, hbad.2, eq_comm]
  · simp [govSigned, hlen]

section Committee

variable (hlen : 2 + (byteAt data 1).toNat * 32 + 8 ≤ data.length)

include hlen

theorem length_committeePks : (committeePks data).length = (byteAt data 1).toNat := by
  rw [committeePks, List.length_map, length_records, length_slice _ _ _ (by omega),
    Nat.add_sub_cancel_left, Nat.mul_div_cancel _ (by decide)]

theorem flatMap_committeePks :
    (committeePks data).flatMap Subtype.val = slice data 2 (2 + (byteAt data 1).toNat * 32) := by
  refine flatMap_map_records (by decide) ?_ fun pk hpk ↦ ?_
  · rw [length_slice _ _ _ (by omega), Nat.add_sub_cancel_left]
    exact Nat.dvd_mul_left _ _
  · exact FixedBytes.val_ofBytes (length_of_mem_records hpk)

/-- The count byte of a setup counts its keys. -/
theorem ofNat_length_committeePks : UInt8.ofNat (committeePks data).length = byteAt data 1 := by
  rw [length_committeePks hlen, UInt8.ofNat_toNat]

theorem ofPayload_encSetup : ∃ h : (committeePks data).length ≤ 255,
    SignedOp.ofPayload P .encSetup data =
      some (.committee ⟨committeePks data, h⟩ (u64At data (2 + (byteAt data 1).toNat * 32))) := by
  have hcount : (byteAt data 1).toNat < 256 := (byteAt data 1).toNat_lt
  have hmax : (committeePks data).length ≤ 255 := by
    rw [length_committeePks hlen]
    omega
  exact ⟨hmax, dif_pos hmax⟩

/-- The committee's message is that of the keys in the payload. -/
theorem committee_message :
    ∃ op, SignedOp.ofPayload P .encSetup data = some op ∧
      canon (ascii "committee")
        [slice (data.take (2 + (byteAt data 1).toNat * 32 + 8)) 1 2,
          slice (data.take (2 + (byteAt data 1).toNat * 32 + 8)) 2
            (2 + (byteAt data 1).toNat * 32),
          (data.take (2 + (byteAt data 1).toNat * 32 + 8)).drop (2 + (byteAt data 1).toNat * 32)] =
        op.message := by
  obtain ⟨hmax, hop⟩ := ofPayload_encSetup (P := P) hlen
  refine ⟨_, hop, ?_⟩
  show _ = canon (ascii "committee") [[UInt8.ofNat (committeePks data).length],
    (committeePks data).flatMap Subtype.val, u64Bytes _]
  rw [flatMap_committeePks hlen, ofNat_length_committeePks hlen, singleton_byteAt (by omega),
    u64Bytes_u64At (by omega), slice_take _ (by omega), slice_take _ (by omega), List.drop_take]
  rfl

end Committee

/-- Refine passes on a signed operation if and only if the payload has its length and carries a
signature of the operation in it. -/
theorem authenticate_eq_some_iff :
    authenticate P tag data = some out ↔
      data.length = signedBody tag data + 64 + signerLen tag ∧
      (∃ op : SignedOp, op.SignedIn P tag data) ∧ out = passedOn tag data := by
  cases tag with
  | withdraw =>
    simp only [authenticate]
    refine accountSigned_eq_some_iff .withdraw rfl rfl rfl fun hlen ↦ ⟨_, rfl, ?_⟩
    rw [slice_take_u32 (by decide) hlen, slice_take_u32 (by decide) hlen,
      slice_take_u64 (by decide) hlen, slice_take_u64 (by decide) hlen]
    rfl
  | cancel =>
    simp only [authenticate]
    refine accountSigned_eq_some_iff .cancel rfl rfl rfl fun hlen ↦ ⟨_, rfl, ?_⟩
    rw [slice_take_u32 (by decide) hlen, slice_take_u32 (by decide) hlen,
      slice_take_u32 (by decide) hlen, slice_take_u64 (by decide) hlen]
    rfl
  | commit =>
    simp only [authenticate]
    refine accountSigned_eq_some_iff .commit rfl rfl rfl fun _ ↦ ⟨_, rfl, ?_⟩
    rw [u32At_take (by decide), u32At_take (by decide), slice_take _ (by decide),
      u64At_take (by decide)]
    rfl
  | encCommit =>
    simp only [authenticate]
    refine accountSigned_eq_some_iff .encCommit rfl rfl rfl fun _ ↦ ⟨_, rfl, ?_⟩
    rw [u32At_take (by decide), u32At_take (by decide), slice_take _ (by decide),
      u64At_take (by decide)]
    rfl
  | register =>
    have hmsg : ∀ key : Bytes32,
        canon (ascii "register") [key.val] = (SignedOp.register key).message := fun _ ↦ rfl
    have hop : SignedOp.ofPayload P .register data = some _ := rfl
    simp only [authenticate, exists_signedIn_iff hop, hmsg, signedBody, signerLen, signedKey,
      passedOn, List.take_zero, List.append_nil]
    split_ifs with hlen hverified
    · exact ⟨fun h ↦ ⟨hlen, hverified, (Option.some.inj h).symm⟩, fun h ↦ congrArg some h.2.2.symm⟩
    · simp [hverified]
    · simp [hlen]
  | treasury =>
    simp only [authenticate]
    refine govSigned_eq_some_iff .treasury rfl rfl rfl fun hlen ↦ ⟨_, rfl, ?_⟩
    rw [slice_take_u32 (by decide) hlen, slice_take_u64 (by decide) hlen,
      slice_take_u32 (by decide) hlen, slice_take_u64 (by decide) hlen]
    rfl
  | encSetup =>
    simp only [authenticate]
    split_ifs with hshort
    · exact govSigned_eq_some_iff .encSetup rfl rfl rfl committee_message
    · simp only [false_iff, not_and, signedBody, signerLen]
      intro hlen
      omega
  | _ => simp [authenticate, SignedOp.SignedIn, SignedOp.ofPayload]

/-! What is passed on of a payload reads as the payload does. -/

section PassedOn

variable (hlen : signedBody tag data ≤ data.length)

include hlen

theorem slice_passedOn {i j : ℕ} (h : j ≤ signedBody tag data) :
    slice (passedOn tag data) i j = slice data i j := by
  have hbody : (passedOn tag data).take (signedBody tag data) = data.take (signedBody tag data) :=
    List.take_left' (by rw [List.length_take, Nat.min_eq_left hlen])
  rw [← slice_take _ h, hbody, slice_take _ h]

theorem u32At_passedOn {i : ℕ} (h : i + 4 ≤ signedBody tag data) :
    u32At (passedOn tag data) i = u32At data i := by
  rw [u32At, u32At, slice_passedOn hlen h]

theorem u64At_passedOn {i : ℕ} (h : i + 8 ≤ signedBody tag data) :
    u64At (passedOn tag data) i = u64At data i := by
  rw [u64At, u64At, slice_passedOn hlen h]

theorem length_passedOn (hsigner : signerLen tag ≤ 32) :
    (passedOn tag data).length = signedBody tag data + signerLen tag := by
  rw [passedOn, List.length_append, List.length_take, List.length_take, FixedBytes.length_val,
    Nat.min_eq_left hlen, Nat.min_eq_left hsigner]

/-- The key of a signer that accumulate takes for the owner is the account's. -/
theorem isOwner_passedOn {st : Storage} {account : UInt32} (hsigner : signerLen tag = 32) :
    isOwner st account ((passedOn tag data).drop (signedBody tag data)) ↔
      pubkeyOf st account = some (signedKey tag data) := by
  rw [passedOn, List.drop_left' (by rw [List.length_take, Nat.min_eq_left hlen]), hsigner,
    List.take_of_length_le (FixedBytes.length_val _).le, isOwner, beq_iff_eq]
  exact ⟨fun h ↦ Option.map_injective Subtype.val_injective h, fun h ↦ congrArg _ h⟩

end PassedOn

/-- An authenticated operation keeps its first byte. -/
theorem authenticate_head (h : authenticate P tag data = some out) : out.head? = data.head? := by
  obtain ⟨hlen, ⟨op, hop, -⟩, rfl⟩ := authenticate_eq_some_iff.mp h
  have hbody : 0 < signedBody tag data := by
    cases tag <;> first | exact Nat.succ_pos _ | cases hop
  have hne : data.take (signedBody tag data) ≠ [] := by
    rw [← List.length_pos_iff, List.length_take]
    omega
  rw [passedOn, List.head?_append_of_ne_nil _ hne, List.head?_take, if_neg (by omega)]

/-- Refine admits a public order if and only if it is not sealed, is at its signed price unless it
is a market order, and carries a signature of it for this market. -/
theorem isSome_admitSigned_iff {market : UInt32} {s : SignedOrder} :
    (admitSigned P market s).isSome ↔ hasFlag s.flags flagSealed = false ∧
      (hasFlag s.flags flagMarket = false → s.order.price = s.signedPrice) ∧
      verifySigned P s.pubkey (SignedOp.ofOrder market s).message s.sig = true := by
  have hmsg : orderMsg s.order.account market s.order.side.byte s.order.qty
      (hasFlag s.flags flagMarket) false s.signedPrice s.seq =
        (SignedOp.ofOrder market s).message := rfl
  simp only [admitSigned, hmsg]
  split_ifs with hsealed hlimit hverified <;> simp_all

end Authenticate

/-! ### No two operations under one signature -/

/-- When at most one message verifies under a signature, so does at most one operation. -/
theorem SignedOp.eq_of_verified {P : Primitives} {key key' : Bytes32} {sig : FixedBytes 64}
    (hunique : ∀ msg msg', P.verify key msg sig = true → P.verify key' msg' sig = true → msg = msg')
    {op op' : SignedOp} (hop : verifySigned P key op.message sig = true)
    (hop' : verifySigned P key' op'.message sig = true) : op = op' := by
  rcases Bool.or_eq_true_iff.mp hop with hraw | hwrapped
  · rcases Bool.or_eq_true_iff.mp hop' with hraw' | hwrapped'
    · exact SignedOp.message_injective (hunique _ _ hraw hraw')
    · exact absurd (hunique _ _ hraw hwrapped') (op.message_ne_framed _)
  · rcases Bool.or_eq_true_iff.mp hop' with hraw' | hwrapped'
    · exact absurd (hunique _ _ hwrapped hraw').symm (op'.message_ne_framed _)
    · exact SignedOp.message_injective (framed_injective (hunique _ _ hwrapped hwrapped'))

/-- Signed messages cannot be confused. What refine verifies is the canonical message of the
operation in the payload, for each of the seven signed kinds, or of an order. That message
determines the operation and every field, no canonical message is the framing of one, and so, when
at most one message verifies under a signature, the signature of one operation verifies as no other,
under either framing. -/
theorem signed_messages_unambiguous (P : Primitives) :
    (∀ (tag : Tag) (data : Bytes), (authenticate P tag data).isSome ↔
        data.length = signedBody tag data + 64 + signerLen tag ∧
          ∃ op : SignedOp, op.SignedIn P tag data) ∧
      (∀ (market : UInt32) (s : SignedOrder), (admitSigned P market s).isSome ↔
        hasFlag s.flags flagSealed = false ∧
          (hasFlag s.flags flagMarket = false → s.order.price = s.signedPrice) ∧
          verifySigned P s.pubkey (SignedOp.ofOrder market s).message s.sig = true) ∧
      (∀ account market side qty isMarket isSealed signedPrice seq,
        orderMsg account market side qty isMarket isSealed signedPrice seq =
          (SignedOp.order account market side qty isMarket isSealed signedPrice seq).message) ∧
      (∀ market account commitId seq,
        commitMsg market account commitId seq =
          (SignedOp.commit market account commitId seq).message) ∧
      Function.Injective SignedOp.message ∧
      (∀ op op' : SignedOp, op.message ≠ framed op'.message) ∧
      ∀ (key key' : Bytes32) (sig : FixedBytes 64),
        (∀ msg msg', P.verify key msg sig = true → P.verify key' msg' sig = true → msg = msg') →
        ∀ op op' : SignedOp, verifySigned P key op.message sig = true →
          verifySigned P key' op'.message sig = true → op = op' := by
  refine ⟨fun tag data ↦ ?_, fun _ _ ↦ isSome_admitSigned_iff, fun _ _ _ _ _ _ _ _ ↦ rfl,
    fun _ _ _ _ ↦ rfl, SignedOp.message_injective, fun op op' ↦ op.message_ne_framed _,
    fun _ _ _ hunique _ _ ↦ SignedOp.eq_of_verified hunique⟩
  simp only [Option.isSome_iff_exists, authenticate_eq_some_iff, exists_and_left,
    exists_eq, and_true]

/-- A verifier for which a signature spells out the message, after its length. -/
def spelledOut : Primitives :=
  { Primitives.toy with
    verify := fun _ msg sig ↦
      decide (msg.length < 64 ∧ sig = FixedBytes.ofBytes 64 (UInt8.ofNat msg.length :: msg)) }

theorem spelledOut_unique {key key' : Bytes32} {sig : FixedBytes 64} {msg msg' : Bytes}
    (h : spelledOut.verify key msg sig = true) (h' : spelledOut.verify key' msg' sig = true) :
    msg = msg' := by
  obtain ⟨hlt, rfl⟩ := of_decide_eq_true h
  obtain ⟨hlt', hsig⟩ := of_decide_eq_true h'
  have hbytes := congrArg Subtype.val hsig
  simp only [FixedBytes.ofBytes, List.cons_append, List.take_succ_cons, List.cons.injEq] at hbytes
  obtain ⟨hcount, hbytes⟩ := hbytes
  have hcount := congrArg UInt8.toNat hcount
  rw [UInt8.toNat_ofNat', UInt8.toNat_ofNat', Nat.mod_eq_of_lt (by omega),
    Nat.mod_eq_of_lt (by omega)] at hcount
  have htake := congrArg (List.take msg.length) hbytes
  rwa [List.take_take, List.take_take, Nat.min_eq_left (by omega), List.take_left, hcount,
    List.take_left] at htake

/-- Account 1 withdraws 5 units of asset 2. -/
def spelledWithdrawal : SignedOp := .withdraw 1 2 5 0

/-- The framing of its message, spelled out. -/
def spelledSig : FixedBytes 64 := FixedBytes.ofBytes 64 (58 :: framed spelledWithdrawal.message)

/-- The payload with that signature passes, and whatever else verifies under the signature is the
same withdrawal. -/
theorem signed_messages_unambiguous_spelledWithdrawal :
    (authenticate spelledOut .withdraw ([Tag.withdraw.byte] ++ spelledWithdrawal.fields.flatten ++
      spelledSig.val ++ List.replicate 32 9)).isSome ∧
    ∀ op : SignedOp, verifySigned spelledOut (FixedBytes.ofBytes 32 (List.replicate 32 9))
      op.message spelledSig = true → op = spelledWithdrawal := by
  obtain ⟨hauthenticate, -, -, -, -, -, hunique⟩ := signed_messages_unambiguous spelledOut
  refine ⟨(hauthenticate .withdraw _).mpr ⟨by decide +kernel, spelledWithdrawal, rfl,
    by decide +kernel⟩, fun op hop ↦ ?_⟩
  exact hunique _ (FixedBytes.ofBytes 32 (List.replicate 32 9)) spelledSig
    (fun _ _ ↦ spelledOut_unique) op spelledWithdrawal hop (by decide +kernel)

end Jamswap.Service
