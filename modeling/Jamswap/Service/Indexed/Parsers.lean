import Jamswap.Service.Indexed.Rules

/-!
# The decoders with their indexing

The decoders of the wire format, the checks of the signed operations and the verifiable decryption,
written with the accesses the source makes. Checked ranges (`get`) give up, every other index, range
and copy may fault. Each decoder finishes on every byte string, with the value of the total one.
-/

namespace Jamswap.Service.Indexed

open Library Library.Access Engine
open Library.Parse (Runs)

/-! ### Records -/

def decodeOrder (o : Bytes) : Access Order := do
  let account ← word32 o 0
  let id ← word32 o 4
  let side ← index o 8
  let price ← word32 o 9
  let qty ← word32 o 13
  .ok ⟨account, id, Side.ofByte side, price, qty⟩

def decodeOrders (data : Bytes) : Access (List Order) := eachRecord orderLen data decodeOrder

theorem decodeOrder_eq {o : Bytes} (h : o.length = orderLen) :
    decodeOrder o = .ok (Engine.decodeOrder o) := by
  have hlen : o.length = 17 := h
  simp (disch := omega) only [decodeOrder, word32_eq, index_byte, ok_bind]
  rfl

variable (data : Bytes) {s : Bytes} {i j k : ℕ}

theorem decodeOrders_eq : decodeOrders data = .ok (Engine.decodeOrders data) :=
  eachRecord_eq fun _ ↦ decodeOrder_eq

/-- One record of signed orders, passed over if no order can be read from it. -/
def decodeSignedOrder (s : Bytes) : Access (Option SignedOrder) := do
  let orders ← decodeOrders (← range s 0 orderLen)
  match orders.head? with
  | none => .ok none
  | some order =>
    let pubkey ← array 32 (← range s 30 62)
    let sig ← array 64 (← range s 62 126)
    let flags ← index s 17
    let signedPrice ← word32 s 18
    let seq ← word64 s 22
    .ok (some ⟨order, flags, signedPrice, seq, pubkey, sig⟩)

def decodeSignedOrders (data : Bytes) : Access (List SignedOrder) := do
  .ok ((← eachRecord signedOrderLen data decodeSignedOrder).filterMap id)

theorem decodeSignedOrder_eq (h : s.length = signedOrderLen) :
    decodeSignedOrder s = .ok (some (Engine.decodeSignedOrder s)) := by
  have hlen : s.length = 126 := h
  have hpubkey : (slice s 30 62).length = 32 := length_slice s 30 62 (by omega)
  have hsig : (slice s 62 126).length = 64 := length_slice s 62 126 (by omega)
  rw [decodeSignedOrder, range_eq (by omega) (by rw [hlen]; decide), ok_bind, decodeOrders_eq,
    ok_bind, decodeOrders_signed h]
  simp only [List.head?_cons]
  simp (disch := omega) only [range_eq, array_eq hpubkey, array_eq hsig, index_byte, word32_eq,
    word64_eq, ok_bind]
  rfl

theorem decodeSignedOrders_eq : decodeSignedOrders data = .ok (Engine.decodeSignedOrders data) := by
  rw [decodeSignedOrders, eachRecord_eq fun _ ↦ decodeSignedOrder_eq, ok_bind,
    Engine.decodeSignedOrders_eq, List.filterMap_map]
  exact congrArg Except.ok (congrFun List.filterMap_eq_map _)

def decodeBinding (s : Bytes) : Access Binding := do
  let pubkey ← array 32 (← range s 12 44)
  let account ← word32 s 0
  let seq ← word64 s 4
  let flags ← index s 44
  let price ← word32 s 45
  .ok ⟨account, seq, pubkey, flags, price⟩

def decodeBindings (data : Bytes) : Access (List Binding) :=
  eachRecord bindingLen data decodeBinding

theorem decodeBinding_eq (h : s.length = bindingLen) :
    decodeBinding s = .ok (Engine.decodeBinding s) := by
  have hlen : s.length = 49 := h
  have hpubkey : (slice s 12 44).length = 32 := length_slice s 12 44 (by omega)
  simp (disch := omega) only [decodeBinding, range_eq, array_eq hpubkey, word32_eq, word64_eq,
    index_byte, ok_bind]
  rfl

theorem decodeBindings_eq : decodeBindings data = .ok (Engine.decodeBindings data) :=
  eachRecord_eq fun _ ↦ decodeBinding_eq

/-! ### Settlements and trailers -/

def decodeSettleEntry (e : Bytes) : Access SettleEntry := do
  let account ← word32 e 0
  let side ← index e 4
  let qty ← word32 e 5
  .ok ⟨account, Side.ofByte side, qty⟩

def decodeSettlement (data : Bytes) : Parse (UInt32 × List SettleEntry) :=
  if data.length < 8 then failure
  else do
    let price ← Parse.access (word32 data 0)
    let n := (← Parse.access (word32 data 4)).toNat
    if data.length < 8 + n * settleEntryLen then failure
    else
      let entries ← Parse.access ((List.range n).mapM fun i ↦ do
        let e ← range data (8 + i * settleEntryLen) (8 + i * settleEntryLen + settleEntryLen)
        decodeSettleEntry e)
      pure (price, entries)

theorem decodeSettleEntry_eq {e : Bytes} (h : e.length = settleEntryLen) :
    decodeSettleEntry e = .ok (Engine.decodeSettleEntry e) := by
  have hlen : e.length = 9 := h
  simp (disch := omega) only [decodeSettleEntry, word32_eq, index_byte, ok_bind]
  rfl

theorem decodeSettlement_runs : Runs (decodeSettlement data) (Engine.decodeSettlement data) := by
  refine Runs.ite (fun _ ↦ Runs.fail) fun hshort ↦ ?_
  refine Runs.access (word32_eq (by omega)) (Runs.access (word32_eq (by omega)) ?_)
  refine Runs.ite (fun _ ↦ Runs.fail) fun hcut ↦ ?_
  generalize (u32At data 4).toNat = n at hcut ⊢
  have hentries : ∀ i ∈ List.range n,
      (range data (8 + i * settleEntryLen) (8 + i * settleEntryLen + settleEntryLen) >>=
        decodeSettleEntry) = .ok (Engine.decodeSettleEntry
          (slice (slice data 8 (8 + n * settleEntryLen)) (i * settleEntryLen)
            ((i + 1) * settleEntryLen))) := by
    intro i hi
    have hend : (i + 1) * settleEntryLen ≤ n * settleEntryLen :=
      Nat.mul_le_mul_right _ (List.mem_range.mp hi)
    have hinside : 8 + i * settleEntryLen + settleEntryLen ≤ data.length := by
      rw [Nat.succ_mul] at hend
      omega
    rw [slice_slice data (by omega), Nat.succ_mul, ← Nat.add_assoc,
      range_eq (Nat.le_add_right _ _) hinside, ok_bind, decodeSettleEntry_eq]
    rw [length_slice data _ _ hinside]
    omega
  refine Runs.access (mapM_eq hentries) ?_
  have hlen : (slice data 8 (8 + n * settleEntryLen)).length / settleEntryLen = n := by
    rw [length_slice data _ _ (by omega), Nat.add_sub_cancel_left]
    exact Nat.mul_div_cancel n (by decide)
  rw [records, hlen, List.map_map]
  exact Runs.pure _

def parseAuthTrailer (out : Bytes) (off : ℕ) : Parse AuthTrailer := do
  let b ← Parse.get out off (off + 2)
  let nb := (← Parse.access (word16 b 0)).toNat
  let hOff := off + 2 + nb * bindingLen
  let rid ← Parse.get out (hOff + 32) (hOff + 64)
  let roundId ← Parse.access (array 32 rid)
  let bindings ← Parse.get out (off + 2) hOff
  let bookHash ← Parse.get out hOff (hOff + 32)
  let book ← Parse.ofOption (suffix? out (hOff + 64))
  pure { bindings, bookHash, roundId, book }

theorem parseAuthTrailer_runs (out : Bytes) (off : ℕ) :
    Runs (parseAuthTrailer out off) (Engine.parseAuthTrailer out off) := by
  refine Runs.get fun _ hnb ↦ ?_
  have hcount : (slice out off (off + 2)).length = 2 := by
    rw [length_slice out _ _ hnb]
    omega
  refine Runs.access (word16_eq (by omega)) ?_
  generalize (u16At (slice out off (off + 2)) 0).toNat = nb
  refine Runs.get fun _ hid ↦ ?_
  have hrid : (slice out (off + 2 + nb * bindingLen + 32)
      (off + 2 + nb * bindingLen + 64)).length = 32 := by
    rw [length_slice out _ _ hid]
    omega
  refine Runs.access (array_eq hrid) ?_
  refine Runs.get fun _ _ ↦ Runs.get fun _ _ ↦ ?_
  exact Runs.bind (Runs.ofOption _) fun book _ ↦ Runs.pure _

/-! ### Signed operations -/

variable {b : Bytes}

section Signed

variable (P : Primitives)

def sig64 (b : Bytes) (off : ℕ) : Access (FixedBytes 64) := do
  array 64 (← range b off (off + 64))

theorem sig64_eq {off : ℕ} (h : off + 64 ≤ b.length) : sig64 b off = .ok (Service.sig64 b off) := by
  have hlen : (slice b off (off + 64)).length = 64 := by
    rw [length_slice b _ _ h]
    omega
  rw [sig64, range_eq (by omega) h, ok_bind, array_eq hlen]
  rfl

def accountSigned (data : Bytes) (body : ℕ) (msg : Bytes → Access Bytes) : Parse Bytes :=
  if data.length ≠ body + 64 + 32 then failure
  else do
    let pk ← Parse.access (rangeFrom data (body + 64) >>= array 32)
    let m ← Parse.access (range data 0 body >>= msg)
    let sig ← Parse.access (sig64 data body)
    if verifySigned P pk m sig then
      let b ← Parse.access (range data 0 body)
      pure (b ++ pk.val)
    else failure

def govSigned (data : Bytes) (body : ℕ) (msg : Bytes → Access Bytes) : Parse Bytes :=
  if data.length ≠ body + 64 then failure
  else do
    let m ← Parse.access (range data 0 body >>= msg)
    let sig ← Parse.access (sig64 data body)
    if verifySigned P govPubkey m sig = false then failure
    else
      Parse.access (range data 0 body)

section Messages

variable {data : Bytes} {body : ℕ} {msg : Bytes → Access Bytes} {msg' : Bytes → Bytes}

section

variable (hmsg : ∀ b, b.length = body → msg b = .ok (msg' b))

include hmsg

theorem message_eq (h : body ≤ data.length) :
    (range data 0 body >>= msg) = .ok (msg' (slice data 0 body)) := by
  rw [range_eq (Nat.zero_le _) h, ok_bind]
  exact hmsg _ (length_slice data 0 body h)

theorem accountSigned_runs :
    Runs (accountSigned P data body msg) (Service.accountSigned P data body msg') := by
  refine Runs.ite (fun _ ↦ Runs.fail) fun hlen ↦ ?_
  rw [not_not] at hlen
  have hpk : (data.drop (body + 64)).length = 32 := by
    rw [List.length_drop]
    omega
  have hkey : (rangeFrom data (body + 64) >>= array 32) =
      .ok (FixedBytes.ofBytes 32 (data.drop (body + 64))) := by
    rw [rangeFrom_eq (by omega), ok_bind, array_eq hpk]
  refine Runs.access hkey (Runs.access (message_eq hmsg (by omega)) ?_)
  refine Runs.access (sig64_eq (by omega)) ?_
  refine Runs.ite (fun _ ↦ ?_) fun _ ↦ Runs.fail
  exact Runs.access (range_eq (Nat.zero_le _) (by omega)) (Runs.pure _)

theorem govSigned_runs : Runs (govSigned P data body msg) (Service.govSigned P data body msg') := by
  have hsplit : Service.govSigned P data body msg' =
      if data.length ≠ body + 64 then none
      else if verifySigned P govPubkey (msg' (slice data 0 body)) (Service.sig64 data body) = false
        then none
      else some (slice data 0 body) := by
    rw [Service.govSigned]
    split_ifs <;> simp_all
  rw [hsplit]
  refine Runs.ite (fun _ ↦ Runs.fail) fun hlen ↦ ?_
  rw [not_not] at hlen
  refine Runs.access (message_eq hmsg (by omega)) (Runs.access (sig64_eq (by omega)) ?_)
  refine Runs.ite (fun _ ↦ Runs.fail) fun _ ↦ ?_
  exact Runs.lift (range_eq (Nat.zero_le _) (by omega))

end

end Messages

/-- The message of an operation whose fields are four ranges of its body. -/
def fieldsMessage (action : Bytes) (i j k l m : ℕ) (b : Bytes) : Access Bytes := do
  let first ← range b i j
  let second ← range b j k
  let third ← range b k l
  let fourth ← range b l m
  .ok (canon action [first, second, third, fourth])

theorem fieldsMessage_eq (action : Bytes) {l m : ℕ} (hij : i ≤ j) (hjk : j ≤ k) (hkl : k ≤ l)
    (hlm : l ≤ m) (hm : m ≤ b.length) :
    fieldsMessage action i j k l m b =
      .ok (canon action [slice b i j, slice b j k, slice b k l, slice b l m]) := by
  rw [fieldsMessage, range_eq hij (by omega), ok_bind, range_eq hjk (by omega), ok_bind,
    range_eq hkl (by omega), ok_bind, range_eq hlm hm, ok_bind]

/-- `le_u64(&b[i..j])`. -/
def rangeU64 (b : Bytes) (i j : ℕ) : Access UInt64 := do
  leU64 (← range b i j)

theorem rangeU64_eq (hij : j = i + 8) (hj : j ≤ b.length) : rangeU64 b i j = .ok (u64At b i) := by
  subst hij
  rw [rangeU64, range_eq (by omega) hj, ok_bind, leU64_eq, u64At, u64At, slice_slice b (by omega)]
  rfl

def commitMessage (b : Bytes) : Access Bytes := do
  let cid ← array 32 (← range b 9 41)
  let market ← word32 b 1
  let account ← word32 b 5
  let seq ← rangeU64 b 41 49
  .ok (commitMsg market account cid seq)

def encCommitMessage (b : Bytes) : Access Bytes := do
  let id := commitment P (← range b 5 encCtEnd)
  let market ← word32 b 1
  let account ← word32 b encCtEnd
  let seq ← rangeU64 b (encCtEnd + 4) (encCtEnd + 12)
  .ok (commitMsg market account id seq)

def committeeMessage (pksEnd : ℕ) (b : Bytes) : Access Bytes := do
  let n ← range b 1 2
  let pks ← range b 2 pksEnd
  let nonce ← rangeFrom b pksEnd
  .ok (canon (ascii "committee") [n, pks, nonce])

theorem commitMessage_eq (h : b.length = commitBody) :
    commitMessage b = .ok (commitMsg (u32At b 1) (u32At b 5)
      (FixedBytes.ofBytes 32 (slice b 9 41)) (u64At b 41)) := by
  have hlen : b.length = 49 := h
  have hcid : (slice b 9 41).length = 32 := length_slice b 9 41 (by omega)
  simp (disch := omega) only [commitMessage, range_eq, array_eq hcid, word32_eq, rangeU64_eq,
    ok_bind]

theorem encCommitMessage_eq (h : b.length = encCommitBody) :
    encCommitMessage P b = .ok (commitMsg (u32At b 1) (u32At b encCtEnd)
      (commitment P (slice b 5 encCtEnd)) (u64At b (encCtEnd + 4))) := by
  have hend : encCtEnd = 54 := rfl
  have hlen : b.length = 66 := h
  simp (disch := omega) only [encCommitMessage, range_eq, word32_eq, rangeU64_eq, ok_bind]

theorem committeeMessage_eq {pksEnd : ℕ} (hend : 2 ≤ pksEnd) (h : b.length = pksEnd + 8) :
    committeeMessage pksEnd b =
      .ok (canon (ascii "committee") [slice b 1 2, slice b 2 pksEnd, b.drop pksEnd]) := by
  simp (disch := omega) only [committeeMessage, range_eq, rangeFrom_eq, ok_bind]

def authenticate (data : Bytes) : Parse Bytes := do
  let t ← Parse.access (index data 0)
  match Tag.ofByte t with
  | some .withdraw =>
    accountSigned P data withdrawBody (fieldsMessage (ascii "withdraw") 1 5 9 17 25)
  | some .cancel => accountSigned P data cancelBody (fieldsMessage (ascii "cancel") 1 5 9 13 21)
  | some .commit => accountSigned P data commitBody commitMessage
  | some .encCommit => accountSigned P data encCommitBody (encCommitMessage P)
  | some .register =>
    if data.length = 1 + 32 + 64 then
      let pk ← Parse.access (range data 1 33 >>= array 32)
      let sig ← Parse.access (sig64 data 33)
      if verifySigned P pk (canon (ascii "register") [pk.val]) sig then
        Parse.access (range data 0 33)
      else failure
    else failure
  | some .treasury => govSigned P data treasuryBody (fieldsMessage (ascii "treasury") 1 5 13 17 25)
  | some .encSetup =>
    if 2 ≤ data.length then
      let pksEnd := 2 + (← Parse.access (index data 1)).toNat * 32
      govSigned P data (pksEnd + 8) (committeeMessage pksEnd)
    else failure
  | _ => failure

theorem authenticate_runs {data : Bytes} {tag : Tag} (h : data.head?.bind Tag.ofByte = some tag) :
    Runs (authenticate P data) (Service.authenticate P tag data) := by
  obtain ⟨t, hhead, htag⟩ := Option.bind_eq_some_iff.mp h
  have hfirst : index data 0 = .ok t := by
    refine index_eq ?_
    rw [← List.head?_eq_getElem?]
    exact hhead
  refine Runs.access hfirst ?_
  rw [htag]
  cases tag with
  | withdraw | cancel =>
    exact accountSigned_runs P fun b hb ↦
      fieldsMessage_eq _ (by omega) (by omega) (by omega) (by omega) (by rw [hb]; decide)
  | commit => exact accountSigned_runs P fun b hb ↦ commitMessage_eq hb
  | encCommit => exact accountSigned_runs P fun b hb ↦ encCommitMessage_eq P hb
  | register =>
    refine Runs.ite (fun hlen ↦ ?_) fun _ ↦ Runs.fail
    have hslice : (slice data 1 33).length = 32 := length_slice data 1 33 (by omega)
    have hkey : (range data 1 33 >>= array 32) = .ok (FixedBytes.ofBytes 32 (slice data 1 33)) := by
      rw [range_eq (by omega) (by omega), ok_bind, array_eq hslice]
    refine Runs.access hkey (Runs.access (sig64_eq (by omega)) ?_)
    refine Runs.ite (fun _ ↦ ?_) fun _ ↦ Runs.fail
    exact Runs.lift (range_eq (by omega) (by omega))
  | treasury =>
    exact govSigned_runs P fun b hb ↦
      fieldsMessage_eq _ (by omega) (by omega) (by omega) (by omega) (by rw [hb]; decide)
  | encSetup =>
    refine Runs.ite (fun hlen ↦ ?_) fun _ ↦ Runs.fail
    refine Runs.access (index_byte (by omega)) ?_
    exact govSigned_runs P fun b hb ↦ committeeMessage_eq (by omega) hb
  | deposit | reveal | list | encRound | smatch | carryCommit | carryEncCommit =>
    exact Runs.fail

end Signed

/-! ### Verifiable decryption -/

section Decryption

variable (P : Primitives)

def dePoint (b : Bytes) : Parse P.curve.Point :=
  if b.length < pointLen then failure
  else do
    let s ← Parse.access (range b 0 pointLen)
    Parse.ofOption (P.curve.decodePoint s)

def deScalar (b : Bytes) : Parse P.curve.Scalar :=
  if b.length < scalarLen then failure
  else do
    let s ← Parse.access (range b 0 scalarLen)
    Parse.ofOption (P.curve.decodeScalar s)

theorem dePoint_runs (b : Bytes) : Runs (dePoint P b) (Engine.dePoint P b) := by
  refine Runs.ite (fun _ ↦ Runs.fail) fun hlen ↦ ?_
  exact Runs.access (range_eq (Nat.zero_le _) (by omega)) (Runs.ofOption _)

theorem deScalar_runs (b : Bytes) : Runs (deScalar P b) (Engine.deScalar P b) := by
  refine Runs.ite (fun _ ↦ Runs.fail) fun hlen ↦ ?_
  exact Runs.access (range_eq (Nat.zero_le _) (by omega)) (Runs.ofOption _)

/-- The hash of the transcript, copied into the lower half of a zeroed array. -/
def challenge (pk c1 s t1 t2 : P.curve.Point) : Access P.curve.Scalar := do
  let d := P.blake2s (ascii "vdec-cp" ++ (P.curve.encodePoint P.curve.generator).val ++
    (P.curve.encodePoint pk).val ++ (P.curve.encodePoint c1).val ++ (P.curve.encodePoint s).val ++
    (P.curve.encodePoint t1).val ++ (P.curve.encodePoint t2).val)
  let wide ← copy (List.replicate 64 0) 0 32 d.val
  .ok (P.curve.reduceScalar wide)

theorem challenge_eq (pk c1 s t1 t2 : P.curve.Point) :
    challenge P pk c1 s t1 t2 = .ok (Engine.challenge P pk c1 s t1 t2) := by
  simp only [challenge]
  rw [copy_eq (Nat.zero_le _) (by simp) (by simp), ok_bind]
  rfl

def verifyPartial (c1Bytes pkBytes part : Bytes) : Parse P.curve.Point :=
  haveI := P.curve.decEqScalar
  if part.length < partialLen then failure
  else do
    let c1 ← dePoint P c1Bytes
    let pk ← dePoint P pkBytes
    let s ← dePoint P (← Parse.access (range part 0 pointLen))
    let e ← deScalar P (← Parse.access (range part pointLen (pointLen + scalarLen)))
    let z ← deScalar P (← Parse.access (rangeFrom part (pointLen + scalarLen)))
    let t1 := P.curve.sub (P.curve.smul P.curve.generator z) (P.curve.smul pk e)
    let t2 := P.curve.sub (P.curve.smul c1 z) (P.curve.smul s e)
    let expected ← Parse.access (challenge P pk c1 s t1 t2)
    if expected = e then pure s else failure

theorem verifyPartial_runs (c1Bytes pkBytes part : Bytes) :
    Runs (verifyPartial P c1Bytes pkBytes part)
      (Engine.verifyPartial P c1Bytes pkBytes part) := by
  refine Runs.ite (fun _ ↦ Runs.fail) fun hlen ↦ ?_
  have hpart : 96 ≤ part.length := Nat.le_of_not_lt hlen
  have hpoint : pointLen = 32 := rfl
  have hscalar : scalarLen = 32 := rfl
  refine Runs.bind (dePoint_runs P _) fun c1 _ ↦ ?_
  refine Runs.bind (dePoint_runs P _) fun pk _ ↦ ?_
  refine Runs.access (range_eq (by omega) (by omega)) ?_
  refine Runs.bind (dePoint_runs P _) fun s _ ↦ ?_
  refine Runs.access (range_eq (by omega) (by omega)) ?_
  refine Runs.bind (deScalar_runs P _) fun e _ ↦ ?_
  refine Runs.access (rangeFrom_eq (by omega)) ?_
  refine Runs.bind (deScalar_runs P _) fun z _ ↦ ?_
  refine Runs.access (challenge_eq P _ _ _ _ _) ?_
  let := P.curve.decEqScalar
  exact Runs.ite (fun _ ↦ Runs.pure _) fun _ ↦ Runs.fail

/-- A block of the keystream. -/
def kdfBlock (shared : P.curve.Point) (ctr : UInt32) : Bytes32 :=
  P.blake2s (ascii "vdec-kdf" ++ (P.curve.encodePoint shared).val ++ u32Bytes ctr)

/-- `while out.len() < len`, `fuel` passes at most. -/
def kdfLoop (shared : P.curve.Point) (len : ℕ) : ℕ → UInt32 → Bytes → Access Bytes
  | 0, _, out => .ok out
  | fuel + 1, ctr, out =>
    if out.length < len then do
      let b ← range (kdfBlock P shared ctr).val 0 (min 32 (len - out.length))
      kdfLoop shared len fuel (ctr + 1) (out ++ b)
    else .ok out

/-- Every pass adds a byte, so that `len` passes are enough. -/
def kdf (shared : P.curve.Point) (len : ℕ) : Access Bytes := kdfLoop P shared len len 0 []

/-- The first `k` blocks of the keystream. -/
def kdfBlocks (shared : P.curve.Point) (k : ℕ) : Bytes :=
  (List.range k).flatMap fun ctr ↦ (kdfBlock P shared (UInt32.ofNat ctr)).val

variable (shared : P.curve.Point)

theorem length_kdfBlocks (k : ℕ) : (kdfBlocks P shared k).length = k * 32 := by
  rw [kdfBlocks, length_flatMap_of_width _ fun ctr ↦ FixedBytes.length_val _, List.length_range]

theorem kdfBlocks_succ (k : ℕ) :
    kdfBlocks P shared (k + 1) =
      kdfBlocks P shared k ++ (kdfBlock P shared (UInt32.ofNat k)).val := by
  rw [kdfBlocks, List.range_succ, List.flatMap_append, List.flatMap_singleton]
  rfl

/-- From `k` whole blocks on, the loop fills the keystream up. -/
theorem kdfLoop_eq {len fuel : ℕ} (hk : k ≤ (len + 31) / 32) (hfuel : len ≤ fuel + k * 32) :
    kdfLoop P shared len fuel (UInt32.ofNat k) ((kdfBlocks P shared k).take len) =
      .ok ((kdfBlocks P shared ((len + 31) / 32)).take len) := by
  have hlen := length_kdfBlocks P shared k
  induction fuel generalizing k with
  | zero =>
    have hlast : k = (len + 31) / 32 := by omega
    rw [kdfLoop, hlast]
  | succ fuel ih =>
    by_cases hfull : len ≤ k * 32
    · have hlast : k = (len + 31) / 32 := by omega
      have hdone : ¬ ((kdfBlocks P shared k).take len).length < len := by
        rw [List.length_take]
        omega
      rw [kdfLoop, if_neg hdone, hlast]
    · have hout : (kdfBlocks P shared k).take len = kdfBlocks P shared k :=
        List.take_of_length_le (by omega)
      have hblock : (kdfBlock P shared (UInt32.ofNat k)).val.length = 32 := FixedBytes.length_val _
      have hnext : (kdfBlocks P shared (k + 1)).take len = kdfBlocks P shared k ++
          slice (kdfBlock P shared (UInt32.ofNat k)).val 0 (min 32 (len - k * 32)) := by
        rw [kdfBlocks_succ, List.take_append, List.take_of_length_le (by omega), hlen, slice,
          List.drop_zero, Nat.sub_zero]
        congr 1
        rw [List.take_eq_take_iff]
        omega
      have hctr : UInt32.ofNat k + 1 = UInt32.ofNat (k + 1) := by
        rw [UInt32.ofNat_add]
        rfl
      rw [hout, kdfLoop, hlen, if_pos (by omega), range_eq (Nat.zero_le _) (by omega), ok_bind,
        ← hnext, hctr]
      exact ih (by omega) (by omega) (length_kdfBlocks P shared (k + 1))

theorem kdf_eq (len : ℕ) : kdf P shared len = .ok (Engine.kdf P shared len) := by
  have hloop := kdfLoop_eq P shared (Nat.zero_le _) (Nat.le_add_right len (0 * 32))
  have hstart : (kdfBlocks P shared 0).take len = [] := List.take_nil
  rw [hstart] at hloop
  exact hloop

/-- `for i in 0..n`: the partial of member `i` against its key. -/
def sumPartials (c1Bytes : Bytes) (committeePks : List Bytes32) (partials : Bytes) :
    Parse P.curve.Point :=
  (List.range committeePks.length).foldlM (fun acc i ↦ do
    let p ← Parse.access (range partials (i * partialLen) ((i + 1) * partialLen))
    let pk ← Parse.access (index committeePks i)
    let s ← verifyPartial P c1Bytes pk.val p
    pure (P.curve.add acc s)) P.curve.identity

theorem sumPartials_foldlM (c1Bytes : Bytes) (members : List (Bytes32 × Bytes))
    (acc : P.curve.Point) :
    Engine.sumPartials P c1Bytes members acc = members.foldlM (fun acc member ↦
      (Engine.verifyPartial P c1Bytes member.1.val member.2).bind fun s ↦
        some (P.curve.add acc s)) acc := by
  induction members generalizing acc with
  | nil => rfl
  | cons member members ih =>
    obtain ⟨pk, part⟩ := member
    rw [Engine.sumPartials, List.foldlM_cons]
    cases Engine.verifyPartial P c1Bytes pk.val part with
    | none => rfl
    | some s => exact ih _

theorem sumPartials_runs (c1Bytes : Bytes) {committeePks : List Bytes32} {partials : Bytes}
    (h : partials.length = committeePks.length * partialLen) :
    Runs (sumPartials P c1Bytes committeePks partials)
      (Engine.sumPartials P c1Bytes (committeePks.zip (records partialLen partials))
        P.curve.identity) := by
  rw [sumPartials_foldlM, zip_records (by decide) h (FixedBytes.ofBytes 32 []), List.foldlM_map]
  refine (Runs.foldlM (I := fun _ ↦ True) (fun acc _ i hi ↦ ⟨?_, fun _ _ ↦ trivial⟩)
    trivial).1
  have hpk := List.mem_range.mp hi
  have hend : (i + 1) * partialLen ≤ partials.length := by
    rw [h]
    exact Nat.mul_le_mul_right _ hpk
  refine Runs.access (range_eq (Nat.mul_le_mul_right _ (Nat.le_succ i)) hend) ?_
  refine Runs.access (index_getD hpk (FixedBytes.ofBytes 32 [])) ?_
  exact Runs.bind (verifyPartial_runs P _ _ _) fun s _ ↦ Runs.pure _

def verifyAndDecrypt (c1Bytes body : Bytes) (committeePks : List Bytes32) (partials : Bytes) :
    Parse Bytes :=
  let n := committeePks.length
  if n = 0 ∨ partials.length ≠ n * partialLen then failure
  else do
    let shared ← sumPartials P c1Bytes committeePks partials
    let ks ← Parse.access (kdf P shared body.length)
    Parse.access (body.zipIdx.mapM fun b ↦ do
      let k ← index ks b.2
      .ok (b.1 ^^^ k))

theorem length_kdf (len : ℕ) : (Engine.kdf P shared len).length = len := by
  have hblocks : Engine.kdf P shared len = (kdfBlocks P shared ((len + 31) / 32)).take len := rfl
  rw [hblocks, List.length_take, length_kdfBlocks]
  omega

theorem verifyAndDecrypt_runs (c1Bytes body : Bytes) (committeePks : List Bytes32)
    (partials : Bytes) :
    Runs (verifyAndDecrypt P c1Bytes body committeePks partials)
      (Engine.verifyAndDecrypt P c1Bytes body committeePks partials) := by
  refine Runs.ite (fun _ ↦ Runs.fail) fun hshape ↦ ?_
  rw [not_or, not_not] at hshape
  refine Runs.bind (sumPartials_runs P c1Bytes hshape.2) fun shared _ ↦ ?_
  refine Runs.access (kdf_eq P shared body.length) ?_
  have hks := length_kdf P shared body.length
  generalize Engine.kdf P shared body.length = ks at hks
  have hbytes : ∀ b ∈ body.zipIdx, (index ks b.2 >>= fun k ↦ (.ok (b.1 ^^^ k) : Access UInt8)) =
      .ok (b.1 ^^^ byteAt ks b.2) := by
    intro b hb
    rw [index_byte (by rw [hks]; exact List.snd_lt_of_mem_zipIdx hb), ok_bind]
  refine Runs.lift ((mapM_eq hbytes).trans (congrArg Except.ok ?_))
  refine List.ext_getElem (by simp [hks]) fun i hi hi' ↦ ?_
  have hik : i < ks.length := by
    rw [List.length_zipWith] at hi'
    omega
  simp [byteAt, hik]

end Decryption

end Jamswap.Service.Indexed
