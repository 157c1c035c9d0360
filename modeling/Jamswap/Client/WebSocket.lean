import Jamswap.Library.Chunks
import Jamswap.Library.Words

/-!
# The WebSocket client of the node's RPC

Frames come in over a socket whose reads cut the byte stream anywhere. `take` refills the buffer
until it holds what is asked for, `frame` parses one frame off it, and `recv` puts the fragments of
a message together, answering pings on the way. `Receives m xs pings a` is the rule all of this is
proved with: if the bytes `xs` come next, in whatever chunks, `m` takes exactly them, answers the
pings and returns `a`. The unmasking is one exclusive or of two big-endian numbers (`xor_xor`).
-/

namespace Jamswap.Client

open Library

abbrev Mask := FixedBytes 4

/-- Four bits. -/
abbrev Opcode := Fin 16

def opCont : Opcode := 0x0
def opText : Opcode := 0x1
def opBin : Opcode := 0x2
def opClose : Opcode := 0x8
def opPing : Opcode := 0x9
def opPong : Opcode := 0xA

/-- The largest message taken. -/
def maxMessage : ℕ := 64 <<< 20

/-! ### Frames as bytes -/

/-- Apply a mask; masking and unmasking are the same. -/
def xor (data : Bytes) (mask : Mask) : Bytes :=
  let n := data.length
  if n = 0 then []
  else
    let key := ((List.replicate (n / 4 + 1) mask.val).flatten).take n
    beBytes n (beValue data ^^^ beValue key)

/-- One final frame, masked when a mask is given. -/
def encodeFrame (opcode : Opcode) (payload : Bytes) (mask : Option Mask) : Bytes :=
  let n := payload.length
  let bit := if mask.isSome then 0x80 else 0
  let head : Bytes :=
    if n < 126 then [UInt8.ofNat (0x80 ||| opcode.val), UInt8.ofNat (bit ||| n)]
    else if n < 2 ^ 16 then
      [UInt8.ofNat (0x80 ||| opcode.val), UInt8.ofNat (bit ||| 126)] ++ beBytes 2 n
    else [UInt8.ofNat (0x80 ||| opcode.val), UInt8.ofNat (bit ||| 127)] ++ beBytes 8 n
  match mask with
  | none => head ++ payload
  | some mask => head ++ mask.val ++ xor payload mask

/-! ### The connection -/

/-- What the connection raises. -/
inductive WsError
  /-- no further read brings anything in time -/
  | timedOut
  | closedByPeer
  | reservedBits
  | frameTooLong (n : ℕ)
  | closed (code : Option ℕ) (reason : Bytes)
  | nestedMessage
  | strayContinuation
  | unknownOpcode (opcode : Opcode)
  | messageTooLong
  /-- the text of a message is not UTF-8 -/
  | undecodable
  deriving DecidableEq, Repr

/-- The connection: what it reads, the frames it sent, and the random masks, one for each frame. -/
structure Conn where
  input : Input UInt8
  sent : List Bytes
  random : ℕ → Mask
  drawn : ℕ

abbrev Ws := ExceptT WsError (StateM Conn)

/-- Run from a connection: the value or what was raised, and the connection after it. -/
def Ws.exec {α : Type} (m : Ws α) (c : Conn) : Except WsError α × Conn := (ExceptT.run m).run c

def fill : Ws Unit := do
  let c ← get
  match c.input.reads with
  | [] => throw .timedOut
  | chunk :: rest =>
    set { c with input := ⟨c.input.buf ++ chunk, rest⟩ }
    if chunk.isEmpty then throw .closedByPeer else pure ()

/-- Fill until the buffer holds `n` bytes, in at most as many passes. -/
def fillTo (n : ℕ) : ℕ → Ws Unit
  | 0 => pure ()
  | passes + 1 => do
    if (← get).input.buf.length < n then
      fill
      fillTo n passes
    else pure ()

def take (n : ℕ) : Ws Bytes := do
  -- every pass is a read, and one after the last read raises
  fillTo n ((← get).input.reads.length + 1)
  let c ← get
  set { c with input := ⟨c.input.buf.drop n, c.input.reads⟩ }
  return c.input.buf.take n

def send (opcode : Opcode) (payload : Bytes) : Ws Unit :=
  modify fun c ↦ { c with
    sent := c.sent ++ [encodeFrame opcode payload (some (c.random c.drawn))]
    drawn := c.drawn + 1 }

/-- The length of a payload, from the second byte of its frame. -/
def payloadLength (b1 : ℕ) : Ws ℕ :=
  let n := b1 &&& 0x7F
  if n = 126 then return beValue (← take 2)
  else if n = 127 then return beValue (← take 8)
  else return n

/-- The payload behind the length, with its mask taken off. -/
def framePayload (b1 n : ℕ) : Ws Bytes :=
  if b1 &&& 0x80 ≠ 0 then do
    let mask ← take 4
    let payload ← take n
    return xor payload (FixedBytes.ofBytes 4 mask)
  else take n

def frame : Ws (Bool × Opcode × Bytes) := do
  let head ← take 2
  let b0 := (byteAt head 0).toNat
  let b1 := (byteAt head 1).toNat
  if b0 &&& 0x70 ≠ 0 then throw .reservedBits
  else
    let fin := b0 &&& 0x80 != 0
    let opcode := Fin.ofNat 16 (b0 &&& 0x0F)
    let n ← payloadLength b1
    if maxMessage < n then throw (.frameTooLong n)
    else
      let payload ← framePayload b1 n
      return (fin, opcode, payload)

/-- A message as `recv` returns it. -/
inductive Message
  | text (s : String)
  | binary (b : Bytes)
  deriving DecidableEq

/-- The message of a kind with these bytes. -/
def message (kind : Opcode) (data : Bytes) : Ws Message :=
  if kind = opText then
    match String.fromUTF8? ⟨data.toArray⟩ with
    | some s => return .text s
    | none => throw .undecodable
  else return .binary data

/-- The kind of the message a data frame belongs to. -/
def messageKind (opcode : Opcode) (kind : Option Opcode) : Ws Opcode :=
  if opcode = opText ∨ opcode = opBin then
    if kind.isSome then throw .nestedMessage else return opcode
  else if opcode = opCont then
    match kind with
    | none => throw .strayContinuation
    | some kind => return kind
  else throw (.unknownOpcode opcode)

/-- The loop of `recv`, over the parts so far and the kind of the message they began. -/
def recvLoop : ℕ → List Bytes → Option Opcode → Ws Message
  | 0, _, _ => throw .timedOut
  | frames + 1, parts, kind => do
    let (fin, opcode, payload) ← frame
    if opcode = opPing then
      send opPong payload
      recvLoop frames parts kind
    else if opcode = opPong then recvLoop frames parts kind
    else if opcode = opClose then
      send opClose (payload.take 2)
      let code := if 2 ≤ payload.length then some (beValue (payload.take 2)) else none
      throw (.closed code (payload.drop 2))
    else
      let kind ← messageKind opcode kind
      let parts := parts ++ [payload]
      if maxMessage < (parts.map List.length).sum then throw .messageTooLong
      else if fin then message kind parts.flatten
      else recvLoop frames parts (some kind)

/-- The next message. A frame takes two bytes at least, so the loop ends with the bytes. -/
def recv : Ws Message := do
  recvLoop ((← get).input.pending.length + 1) [] none

/-! ### Masking -/

theorem length_xor (data : Bytes) (mask : Mask) : (xor data mask).length = data.length := by
  rw [xor]
  split_ifs with hempty
  · exact hempty.symm
  · exact length_beBytes _ _

theorem length_key (n : ℕ) (mask : Mask) :
    (((List.replicate (n / 4 + 1) mask.val).flatten).take n).length = n := by
  have hrepeat : ((List.replicate (n / 4 + 1) mask.val).flatten).length = (n / 4 + 1) * 4 := by
    rw [List.length_flatten, List.map_replicate, mask.property, List.sum_replicate_nat]
  rw [List.length_take, hrepeat]
  omega

/-- Unmasking gives back what was masked. -/
theorem xor_xor (data : Bytes) (mask : Mask) : xor (xor data mask) mask = data := by
  by_cases hempty : data.length = 0
  · rw [xor, if_pos ((length_xor data mask).trans hempty)]
    exact (List.length_eq_zero_iff.mp hempty).symm
  · have hdata := beValue_lt data
    have hkey := beValue_lt (((List.replicate (data.length / 4 + 1) mask.val).flatten).take
      data.length)
    rw [length_key] at hkey
    have hpow : 256 ^ data.length = 2 ^ (8 * data.length) := by rw [pow_mul]; rfl
    rw [hpow] at hdata hkey
    have hlt := Nat.xor_lt_two_pow hdata hkey
    rw [← hpow] at hlt
    rw [xor, length_xor, if_neg hempty, xor, if_neg hempty, beValue_beBytes, Nat.mod_eq_of_lt hlt]
    simp only [Nat.xor_assoc, Nat.xor_self, Nat.xor_zero, beBytes_beValue]

/-! ### What the connection receives -/

/-- The pongs for the payloads of some pings, masked with the random masks from number `n` on. -/
def pongs (random : ℕ → Mask) : ℕ → List Bytes → List Bytes
  | _, [] => []
  | n, payload :: payloads =>
    encodeFrame opPong payload (some (random n)) :: pongs random (n + 1) payloads

theorem pongs_append (random : ℕ → Mask) (n : ℕ) (ps qs : List Bytes) :
    pongs random n (ps ++ qs) = pongs random n ps ++ pongs random (n + ps.length) qs := by
  induction ps generalizing n with
  | nil => rfl
  | cons p ps ih =>
    rw [List.cons_append, pongs, ih, pongs, List.cons_append, List.length_cons,
      Nat.add_assoc, Nat.add_comm 1]

/-- From `c` to `c'` the bytes `xs` were taken and the pings answered. -/
structure Conn.Moves (c : Conn) (xs : Bytes) (pings : List Bytes) (c' : Conn) : Prop where
  taken : c.input.Advances xs c'.input
  sent : c'.sent = c.sent ++ pongs c.random c.drawn pings
  drawn : c'.drawn = c.drawn + pings.length
  random : c'.random = c.random

variable {c c' : Conn} {n b1 : ℕ} {opcode k : Opcode}

theorem Conn.Moves.trans {c'' : Conn} {xs ys : Bytes} {ps qs : List Bytes} (h : c.Moves xs ps c')
    (h' : c'.Moves ys qs c'') : c.Moves (xs ++ ys) (ps ++ qs) c'' where
  taken := h.taken.trans h'.taken
  sent := by
    rw [h'.sent, h.sent, h.random, h.drawn, pongs_append, List.append_assoc]
  drawn := by rw [h'.drawn, h.drawn, List.length_append, Nat.add_assoc]
  random := h'.random.trans h.random

/-- Whenever the bytes `xs` come next, in whatever chunks, `m` takes exactly them, answers the pings
and returns `a`. -/
def Receives {α : Type} (m : Ws α) (xs : Bytes) (pings : List Bytes) (a : α) : Prop :=
  ∀ c : Conn, c.input.Ready xs → ∃ c', m.exec c = (.ok a, c') ∧ c.Moves xs pings c'

section Rules

variable {α β : Type} {m : Ws α} {f : α → Ws β} {xs ys : Bytes} {ps qs : List Bytes} {a : α} {b : β}

theorem exec_bind_of_ok (h : m.exec c = (.ok a, c')) : (m >>= f).exec c = (f a).exec c' := by
  unfold Ws.exec at h ⊢
  rw [ExceptT.run_bind, StateT.run_bind, h]
  rfl

theorem Receives.pure (a : α) : Receives (Pure.pure a) [] [] a :=
  fun c _ ↦ ⟨c, rfl, Input.Advances.refl _, (List.append_nil _).symm, rfl, rfl⟩

theorem Receives.bind (hm : Receives m xs ps a) (hf : Receives (f a) ys qs b) :
    Receives (m >>= f) (xs ++ ys) (ps ++ qs) b := by
  intro c hready
  obtain ⟨c', hexec, hmoves⟩ := hm c hready.left
  obtain ⟨c'', hexec', hmoves'⟩ := hf c' (hready.advance hmoves.taken)
  exact ⟨c'', (exec_bind_of_ok hexec).trans hexec', hmoves.trans hmoves'⟩

/-- A step that answers no ping. -/
theorem Receives.bind_silent (hm : Receives m xs [] a) (hf : Receives (f a) ys qs b) :
    Receives (m >>= f) (xs ++ ys) qs b := hm.bind hf

theorem Receives.map (hm : Receives m xs ps a) (g : α → β) :
    Receives (m >>= fun x ↦ Pure.pure (g x)) xs ps (g a) := by
  have hbind := hm.bind (f := fun x ↦ Pure.pure (g x)) (Receives.pure (g a))
  rwa [List.append_nil, List.append_nil] at hbind

theorem Receives.send (payload : Bytes) : Receives (send opPong payload) [] [payload] () :=
  fun _ _ ↦ ⟨_, rfl, Input.Advances.refl _, rfl, rfl, rfl⟩

theorem exec_fill {chunk : Bytes} {rest : List Bytes} (h : c.input.reads = chunk :: rest)
    (hchunk : chunk ≠ []) :
    fill.exec c = (.ok (), { c with input := ⟨c.input.buf ++ chunk, rest⟩ }) := by
  rw [fill, exec_bind_of_ok (rfl : Ws.exec get c = (.ok c, c)), h]
  refine (exec_bind_of_ok rfl).trans ?_
  rw [if_neg (by simpa using hchunk)]
  rfl

/-- Filling up to the length of what comes next succeeds, and takes nothing. -/
theorem exec_fillTo {passes : ℕ} (hready : c.input.Ready xs)
    (hpasses : c.input.reads.length < passes) :
    ∃ c', (fillTo xs.length passes).exec c = (.ok (), c') ∧ c.Moves [] [] c' ∧
      xs.length ≤ c'.input.buf.length := by
  induction passes generalizing c with
  | zero => exact absurd hpasses (Nat.not_lt_zero _)
  | succ passes ih =>
    rw [fillTo, exec_bind_of_ok (rfl : Ws.exec get c = (.ok c, c))]
    split_ifs with hshort
    · cases hreads : c.input.reads with
      | nil =>
        have hlength := hready.next.length_le
        rw [Input.pending, hreads, List.flatten_nil, List.append_nil] at hlength
        omega
      | cons chunk rest =>
        have hread := Input.advances_read hreads
        have hfill := exec_fill hreads (hready.nonempty chunk (by rw [hreads]; simp))
        rw [exec_bind_of_ok hfill]
        rw [hreads, List.length_cons] at hpasses
        obtain ⟨c', hexec, hmoves, hlong⟩ := ih
          (c := { c with input := ⟨c.input.buf ++ chunk, rest⟩ })
          (hready.keep hread) (by simpa using hpasses)
        refine ⟨c', hexec, ?_, hlong⟩
        have hfirst : c.Moves [] [] { c with input := ⟨c.input.buf ++ chunk, rest⟩ } :=
          ⟨hread, (List.append_nil _).symm, rfl, rfl⟩
        exact hfirst.trans hmoves
    · exact ⟨c, rfl, ⟨Input.Advances.refl _, (List.append_nil _).symm, rfl, rfl⟩, not_lt.mp hshort⟩

theorem Receives.take (h : xs.length = n) : Receives (take n) xs [] xs := by
  subst h
  intro c hready
  obtain ⟨c', hexec, hmoves, hlong⟩ := exec_fillTo hready (Nat.lt_succ_self _)
  have hready' : c'.input.Ready xs := hready.keep hmoves.taken
  have htaken := Input.advances_drop c'.input xs.length
  rw [hready'.take_buf hlong] at htaken
  refine ⟨{ c' with input := ⟨c'.input.buf.drop xs.length, c'.input.reads⟩ }, ?_, ?_⟩
  · rw [Client.take, exec_bind_of_ok (rfl : Ws.exec get c = (.ok c, c)), exec_bind_of_ok hexec,
      exec_bind_of_ok (rfl : Ws.exec get c' = (.ok c', c'))]
    refine (exec_bind_of_ok rfl).trans ?_
    rw [hready'.take_buf hlong]
    rfl
  · have hlast : c'.Moves xs [] { c' with
        input := ⟨c'.input.buf.drop xs.length, c'.input.reads⟩ } :=
      ⟨htaken, (List.append_nil _).symm, rfl, rfl⟩
    exact hmoves.trans hlast

end Rules

/-! ### One frame -/

/-- A frame as a peer sends it. -/
structure Frame where
  fin : Bool
  opcode : Opcode
  payload : Bytes
  mask : Option Mask

/-- The bytes of a frame: those of a final one, but for the final bit. -/
def Frame.wire (f : Frame) : Bytes :=
  UInt8.ofNat ((if f.fin then 0x80 else 0) ||| f.opcode.val) ::
    (encodeFrame f.opcode f.payload f.mask).tail

/-- The seven bits of the second byte that stand for a length. -/
def shortLength (n : ℕ) : ℕ := if n < 126 then n else if n < 2 ^ 16 then 126 else 127

/-- The bytes that follow for a length without room in seven bits. -/
def longLength (n : ℕ) : Bytes :=
  if n < 126 then [] else if n < 2 ^ 16 then beBytes 2 n else beBytes 8 n

/-- The mask and the payload under it. -/
def masked (payload : Bytes) : Option Mask → Bytes
  | none => payload
  | some mask => mask.val ++ xor payload mask

theorem encodeFrame_eq (opcode : Opcode) (payload : Bytes) (mask : Option Mask) :
    encodeFrame opcode payload mask =
      [UInt8.ofNat (0x80 ||| opcode.val),
        UInt8.ofNat ((if mask.isSome then 0x80 else 0) ||| shortLength payload.length)] ++
        (longLength payload.length ++ masked payload mask) := by
  simp only [encodeFrame, shortLength, longLength, masked]
  cases mask with
  | none | some =>
    simp only
    split_ifs <;> simp

theorem Frame.wire_eq (f : Frame) :
    f.wire = [UInt8.ofNat ((if f.fin then 0x80 else 0) ||| f.opcode.val),
      UInt8.ofNat ((if f.mask.isSome then 0x80 else 0) ||| shortLength f.payload.length)] ++
      (longLength f.payload.length ++ masked f.payload f.mask) := by
  rw [Frame.wire, encodeFrame_eq]
  rfl

theorem wire_final (opcode : Opcode) (payload : Bytes) (mask : Option Mask) :
    Frame.wire ⟨true, opcode, payload, mask⟩ = encodeFrame opcode payload mask := by
  rw [Frame.wire_eq, encodeFrame_eq]
  rfl

theorem two_le_length_wire (f : Frame) : 2 ≤ f.wire.length := by
  rw [Frame.wire_eq, List.length_append]
  exact Nat.le_add_right 2 _

theorem first_byte (fin : Bool) (opcode : Opcode) :
    (UInt8.ofNat ((if fin then 0x80 else 0) ||| opcode.val)).toNat &&& 0x70 = 0 ∧
      ((UInt8.ofNat ((if fin then 0x80 else 0) ||| opcode.val)).toNat &&& 0x80 != 0) = fin ∧
      Fin.ofNat 16 ((UInt8.ofNat ((if fin then 0x80 else 0) ||| opcode.val)).toNat &&& 0x0F) =
        opcode := by
  revert fin opcode
  decide +kernel

theorem second_byte (isMasked : Bool) (hn : n < 128) :
    (UInt8.ofNat ((if isMasked then 0x80 else 0) ||| n)).toNat &&& 0x7F = n ∧
      ((UInt8.ofNat ((if isMasked then 0x80 else 0) ||| n)).toNat &&& 0x80 ≠ 0 ↔
        isMasked = true) := by
  have hall : ∀ isMasked : Bool, ∀ n < 128,
      (UInt8.ofNat ((if isMasked then 0x80 else 0) ||| n)).toNat &&& 0x7F = n ∧
        ((UInt8.ofNat ((if isMasked then 0x80 else 0) ||| n)).toNat &&& 0x80 ≠ 0 ↔
          isMasked = true) := by decide +kernel
  exact hall isMasked n hn

theorem shortLength_lt (n : ℕ) : shortLength n < 128 := by
  rw [shortLength]
  split_ifs
  · omega
  · omega
  · omega

theorem Receives.payloadLength (hn : n < 2 ^ 64) (h : b1 &&& 0x7F = shortLength n) :
    Receives (payloadLength b1) (longLength n) [] n := by
  simp only [Client.payloadLength, h, shortLength, longLength]
  by_cases hshort : n < 126
  · rw [if_pos hshort, if_neg (by omega), if_neg (by omega), if_pos hshort]
    exact Receives.pure n
  · by_cases hmiddle : n < 2 ^ 16
    · have hvalue : beValue (beBytes 2 n) = n := by
        rw [beValue_beBytes, Nat.mod_eq_of_lt (by omega)]
      simp only [if_neg hshort, if_pos hmiddle, if_true]
      have hread := (Receives.take (length_beBytes 2 n)).map beValue
      rwa [hvalue] at hread
    · have hvalue : beValue (beBytes 8 n) = n := by
        rw [beValue_beBytes, Nat.mod_eq_of_lt (by omega)]
      simp only [if_neg hshort, if_neg hmiddle, if_true]
      have hread := (Receives.take (length_beBytes 8 n)).map beValue
      rwa [hvalue] at hread

theorem Receives.framePayload {payload : Bytes} {mask : Option Mask}
    (h : b1 &&& 0x80 ≠ 0 ↔ mask.isSome = true) :
    Receives (framePayload b1 payload.length) (masked payload mask) [] payload := by
  rw [Client.framePayload]
  cases mask with
  | none =>
    rw [if_neg (by simpa using h)]
    exact Receives.take rfl
  | some mask =>
    rw [if_pos (by simpa using h)]
    have hread := (Receives.take (length_xor payload mask)).map fun b ↦ xor b mask
    rw [xor_xor] at hread
    refine (Receives.take mask.property).bind ?_
    simpa only [FixedBytes.ofBytes_val] using hread

/-- A frame is parsed off its bytes. -/
theorem Receives.frame (f : Frame) (hlen : f.payload.length ≤ maxMessage) :
    Receives frame f.wire [] (f.fin, f.opcode, f.payload) := by
  have hfits : f.payload.length < 2 ^ 64 := hlen.trans_lt (by decide)
  rw [Frame.wire_eq]
  obtain ⟨hreserved, hfin, hopcode⟩ := first_byte f.fin f.opcode
  obtain ⟨hshort, hmasked⟩ := second_byte f.mask.isSome (shortLength_lt f.payload.length)
  generalize UInt8.ofNat ((if f.fin then 0x80 else 0) ||| f.opcode.val) = b0 at *
  generalize UInt8.ofNat ((if f.mask.isSome then 0x80 else 0) ||| shortLength f.payload.length) = b1
    at *
  have hbody : Receives (Client.framePayload b1.toNat f.payload.length >>= fun payload ↦
      Pure.pure (f.fin, f.opcode, payload)) (masked f.payload f.mask) []
      (f.fin, f.opcode, f.payload) :=
    (Receives.framePayload hmasked).map _
  have hrest : Receives (Client.payloadLength b1.toNat >>= fun n ↦
      if maxMessage < n then throw (.frameTooLong n)
      else Client.framePayload b1.toNat n >>= fun payload ↦
        Pure.pure (f.fin, f.opcode, payload))
      (longLength f.payload.length ++ masked f.payload f.mask) []
      (f.fin, f.opcode, f.payload) := by
    refine (Receives.payloadLength hfits hshort).bind ?_
    rw [if_neg (not_lt.mpr hlen)]
    exact hbody
  have hhead : Receives (Client.take 2) [b0, b1] [] [b0, b1] := Receives.take rfl
  refine hhead.bind ?_
  change Receives (if b0.toNat &&& 0x70 ≠ 0 then throw .reservedBits else
    Client.payloadLength b1.toNat >>= fun n ↦
      if maxMessage < n then throw (.frameTooLong n)
      else Client.framePayload b1.toNat n >>= fun payload ↦
        Pure.pure (b0.toNat &&& 0x80 != 0, Fin.ofNat 16 (b0.toNat &&& 0x0F), payload)) _ _ _
  rw [if_neg (not_not.mpr hreserved), hfin, hopcode]
  exact hrest

/-! ### Messages in fragments -/

/-- A ping or a pong. -/
structure Control where
  ping : Bool
  fin : Bool
  payload : Bytes
  mask : Option Mask

def Control.frame (k : Control) : Frame :=
  ⟨k.fin, if k.ping then opPing else opPong, k.payload, k.mask⟩

/-- A fragment of a message, and the control frames sent before it. -/
structure Fragment where
  before : List Control
  payload : Bytes
  mask : Option Mask

/-- The frames of a message: the first fragment has the opcode of its kind, the others are
continuations, and only the last is final. -/
def messageFrames (opcode : Opcode) : List Fragment → List Frame
  | [] => []
  | p :: rest =>
    p.before.map Control.frame ++
      ⟨rest.isEmpty, opcode, p.payload, p.mask⟩ :: messageFrames opCont rest

/-- The payloads of the pings among some control frames. -/
def pingPayloads (controls : List Control) : List Bytes :=
  (controls.filter Control.ping).map Control.payload

def wires (fs : List Frame) : Bytes := fs.flatMap Frame.wire

theorem length_le_length_wires (fs : List Frame) : fs.length ≤ (wires fs).length := by
  induction fs with
  | nil => exact Nat.zero_le _
  | cons f fs ih =>
    have hwire := two_le_length_wire f
    rw [wires, List.flatMap_cons, ← wires, List.length_append, List.length_cons]
    omega

section Loop

variable {fuel : ℕ} {parts : List Bytes} {kind : Option Opcode} {xs : Bytes} {ps : List Bytes}
  {msg : Message}

/-- A control frame is dealt with and the loop goes on. -/
theorem Receives.recvLoop_control (k : Control) (hlen : k.payload.length ≤ maxMessage)
    (h : Receives (recvLoop fuel parts kind) xs ps msg) :
    Receives (recvLoop (fuel + 1) parts kind) (k.frame.wire ++ xs) (pingPayloads [k] ++ ps)
      msg := by
  have hframe := Receives.frame k.frame hlen
  rw [recvLoop]
  refine hframe.bind_silent ?_
  cases hping : k.ping with
  | true =>
    have hopcode : k.frame.opcode = opPing := if_pos hping
    have hpings : pingPayloads [k] = [k.payload] := by simp [pingPayloads, hping]
    simp only [hopcode, if_true, hpings]
    exact (Receives.send k.payload).bind h
  | false =>
    have hopcode : k.frame.opcode = opPong := if_neg (by simp [hping])
    have hpings : pingPayloads [k] = [] := by simp [pingPayloads, hping]
    simp only [hopcode, hpings]
    rw [if_neg (by decide), if_pos trivial]
    exact h

theorem Receives.recvLoop_controls {least : ℕ} (ks : List Control)
    (hlen : ∀ k ∈ ks, k.payload.length ≤ maxMessage)
    (h : ∀ fuel, least ≤ fuel → Receives (recvLoop fuel parts kind) xs ps msg) (fuel : ℕ)
    (hfuel : ks.length + least ≤ fuel) :
    Receives (recvLoop fuel parts kind) (wires (ks.map Control.frame) ++ xs)
      (pingPayloads ks ++ ps) msg := by
  induction ks generalizing fuel with
  | nil => exact h fuel (by simpa using hfuel)
  | cons k ks ih =>
    obtain ⟨fuel, rfl⟩ : ∃ n, fuel = n + 1 := ⟨fuel - 1, by rw [List.length_cons] at hfuel; omega⟩
    have hrest := ih (fun k' hk' ↦ hlen k' (List.mem_cons_of_mem k hk')) fuel
      (by rw [List.length_cons] at hfuel; omega)
    have hone := Receives.recvLoop_control k (hlen k List.mem_cons_self) hrest
    have hpings : pingPayloads (k :: ks) = pingPayloads [k] ++ pingPayloads ks := by
      rw [pingPayloads, ← List.singleton_append, List.filter_append, List.map_append]
      rfl
    rw [hpings, List.append_assoc, List.map_cons, wires, List.flatMap_cons, ← wires,
      List.append_assoc]
    exact hone

/-- A part of a message, after which the loop goes on or the message is complete. -/
theorem Receives.recvLoop_part (p : Fragment) (fin : Bool)
    (hdata : opcode ≠ opPing ∧ opcode ≠ opPong ∧ opcode ≠ opClose)
    (hkind : messageKind opcode kind = Pure.pure k) (hlen : p.payload.length ≤ maxMessage)
    (hsum : ((parts ++ [p.payload]).map List.length).sum ≤ maxMessage)
    (h : Receives (if fin then message k (parts ++ [p.payload]).flatten
      else recvLoop fuel (parts ++ [p.payload]) (some k)) xs ps msg) :
    Receives (recvLoop (fuel + 1) parts kind)
      (Frame.wire ⟨fin, opcode, p.payload, p.mask⟩ ++ xs) ps msg := by
  have hframe := Receives.frame ⟨fin, opcode, p.payload, p.mask⟩ hlen
  rw [recvLoop]
  refine hframe.bind_silent ?_
  simp only [if_neg hdata.1, if_neg hdata.2.1, if_neg hdata.2.2, hkind]
  rw [pure_bind, if_neg (not_lt.mpr hsum)]
  exact h

end Loop

/-- The opcode a message begins with. -/
def Message.kind : Message → Opcode
  | .text _ => opText
  | .binary _ => opBin

/-- The bytes of a message, text as UTF-8. -/
def Message.bytes : Message → Bytes
  | .text s => s.toByteArray.data.toList
  | .binary b => b

/-- The loop puts the fragments of a message together. -/
theorem Receives.recvLoop_fragments {msg : Message} (fragments : List Fragment)
    (hcontrols : ∀ p ∈ fragments, ∀ c ∈ p.before, c.payload.length ≤ maxMessage)
    {kind : Option Opcode} {parts : List Bytes} (hne : fragments ≠ [])
    (hdata : opcode ≠ opPing ∧ opcode ≠ opPong ∧ opcode ≠ opClose)
    (hkind : messageKind opcode kind = Pure.pure k)
    (hsum : (parts.flatten ++ fragments.flatMap Fragment.payload).length ≤ maxMessage)
    (hmessage : message k (parts.flatten ++ fragments.flatMap Fragment.payload) = Pure.pure msg)
    (fuel : ℕ) (hfuel : (messageFrames opcode fragments).length ≤ fuel) :
    Receives (recvLoop fuel parts kind) (wires (messageFrames opcode fragments))
      (fragments.flatMap fun p ↦ pingPayloads p.before) msg := by
  induction fragments generalizing opcode kind parts fuel with
  | nil => exact absurd rfl hne
  | cons p rest ih =>
    have hparts : (parts ++ [p.payload]).flatten ++ rest.flatMap Fragment.payload =
        parts.flatten ++ (p :: rest).flatMap Fragment.payload := by
      simp
    have hlen : p.payload.length ≤ maxMessage := by
      refine le_trans ?_ hsum
      simp only [List.flatMap_cons, List.length_append]
      omega
    have hpartsum : ((parts ++ [p.payload]).map List.length).sum ≤ maxMessage := by
      rw [← List.length_flatten]
      refine le_trans ?_ hsum
      rw [← hparts, List.length_append]
      exact Nat.le_add_right _ _
    rw [messageFrames, wires, List.flatMap_append, ← wires, List.flatMap_cons, List.flatMap_cons]
    rw [messageFrames, List.length_append, List.length_map, List.length_cons] at hfuel
    refine Receives.recvLoop_controls p.before (hcontrols p List.mem_cons_self)
      (fun fuel hleast ↦ ?_) fuel hfuel
    obtain ⟨fuel, rfl⟩ : ∃ n, fuel = n + 1 := ⟨fuel - 1, by omega⟩
    refine Receives.recvLoop_part p rest.isEmpty hdata hkind hlen hpartsum ?_
    cases rest with
    | nil =>
      rw [← hparts, List.flatMap_nil, List.append_nil] at hmessage
      rw [List.isEmpty_nil, if_pos rfl, hmessage]
      exact Receives.pure msg
    | cons q rest =>
      rw [List.isEmpty_cons, if_neg (by decide)]
      refine ih (fun p' hp' ↦ hcontrols p' (List.mem_cons_of_mem p hp')) (by simp) (by decide) rfl
        ?_ ?_ fuel (by omega)
      · rwa [hparts]
      · rwa [hparts]

theorem message_bytes (msg : Message) : message msg.kind msg.bytes = Pure.pure msg := by
  cases msg with
  | text s =>
    have hdecode : String.fromUTF8? ⟨s.toByteArray.data.toList.toArray⟩ = some s := by
      rw [String.fromUTF8?, dif_pos (by simpa using s.isValidUTF8)]
      rfl
    simp only [message, Message.kind, Message.bytes, hdecode, if_true]
  | binary b => rfl

theorem messageKind_first (msg : Message) :
    messageKind msg.kind none = Pure.pure msg.kind ∧
      msg.kind ≠ opPing ∧ msg.kind ≠ opPong ∧ msg.kind ≠ opClose := by
  cases msg with
  | text s => exact ⟨rfl, show opText ≠ opPing ∧ opText ≠ opPong ∧ opText ≠ opClose by decide⟩
  | binary b => exact ⟨rfl, show opBin ≠ opPing ∧ opBin ≠ opPong ∧ opBin ≠ opClose by decide⟩

theorem Receives.recv (msg : Message) {fragments : List Fragment} (hne : fragments ≠ [])
    (hbytes : fragments.flatMap Fragment.payload = msg.bytes)
    (hsize : msg.bytes.length ≤ maxMessage)
    (hcontrols : ∀ p ∈ fragments, ∀ k ∈ p.before, k.payload.length ≤ maxMessage) :
    Receives recv (wires (messageFrames msg.kind fragments))
      (fragments.flatMap fun p ↦ pingPayloads p.before) msg := by
  intro c hready
  obtain ⟨hkind, hdata⟩ := messageKind_first msg
  have hfuel : (messageFrames msg.kind fragments).length ≤ c.input.pending.length + 1 :=
    ((length_le_length_wires _).trans hready.next.length_le).trans (Nat.le_succ _)
  have hloop : Receives (recvLoop (c.input.pending.length + 1) [] none) _ _ msg :=
    Receives.recvLoop_fragments fragments hcontrols hne hdata hkind (by rw [hbytes]; exact hsize)
      (by rw [hbytes]; exact message_bytes msg) _ hfuel
  obtain ⟨c', hexec, hmoves⟩ := hloop c hready
  refine ⟨c', ?_, hmoves⟩
  rw [Client.recv, exec_bind_of_ok (rfl : Ws.exec get c = (.ok c, c))]
  exact hexec

/-- Messages survive any chunking. Take a message of at most `maxMessage` bytes, cut into fragments
with pings and pongs before any of them, each frame masked or not, and a connection on which the
bytes of these frames come next, in reads that each bring something. `recv` returns the message,
answers every ping in order with its payload, and leaves in the buffer exactly what it read after
the last frame. The same for one frame: `frame` inverts `encodeFrame`. -/
theorem message_survives_chunking (c : Conn) (hreads : ∀ chunk ∈ c.input.reads, chunk ≠ []) :
    (∀ (msg : Message) (fragments : List Fragment) (after : Bytes), fragments ≠ [] →
      fragments.flatMap Fragment.payload = msg.bytes → msg.bytes.length ≤ maxMessage →
      (∀ p ∈ fragments, ∀ k ∈ p.before, k.payload.length ≤ maxMessage) →
      c.input.pending = wires (messageFrames msg.kind fragments) ++ after →
      ∃ c', recv.exec c = (.ok msg, c') ∧
        c'.sent = c.sent ++ pongs c.random c.drawn
          (fragments.flatMap fun p ↦ pingPayloads p.before) ∧
        c'.input.pending = after ∧
        ∃ brought, c.input.reads = brought ++ c'.input.reads ∧
          c.input.buf ++ brought.flatten =
            wires (messageFrames msg.kind fragments) ++ c'.input.buf) ∧
    ∀ (opcode : Opcode) (payload : Bytes) (mask : Option Mask) (after : Bytes),
      payload.length ≤ maxMessage → c.input.pending = encodeFrame opcode payload mask ++ after →
      ∃ c', frame.exec c = (.ok (true, opcode, payload), c') ∧ c'.sent = c.sent ∧
        c'.input.pending = after ∧
        ∃ brought, c.input.reads = brought ++ c'.input.reads ∧
          c.input.buf ++ brought.flatten = encodeFrame opcode payload mask ++ c'.input.buf := by
  constructor
  · intro msg fragments after hne hbytes hsize hcontrols hpending
    obtain ⟨c', hexec, hmoves⟩ := Receives.recv msg hne hbytes hsize hcontrols c
      ⟨hreads, after, hpending.symm⟩
    refine ⟨c', hexec, hmoves.sent, ?_, hmoves.taken⟩
    exact List.append_cancel_left (hmoves.taken.pending_eq.symm.trans hpending)
  · intro opcode payload mask after hlen hpending
    rw [← wire_final] at hpending ⊢
    obtain ⟨c', hexec, hmoves⟩ := Receives.frame ⟨true, opcode, payload, mask⟩ hlen c
      ⟨hreads, after, hpending.symm⟩
    refine ⟨c', hexec, hmoves.sent.trans (List.append_nil _), ?_, hmoves.taken⟩
    exact List.append_cancel_left (hmoves.taken.pending_eq.symm.trans hpending)

/-- A text in two fragments, the second masked and behind a ping. -/
def sampleFragments : List Fragment :=
  [⟨[], [0x68], none⟩, ⟨[⟨true, true, [1, 2], none⟩], [0x69], some ⟨[5, 6, 7, 8], rfl⟩⟩]

/-- The bytes of these frames and one more, in three reads. -/
def sampleConn : Conn where
  input := ⟨[], [[0x01, 0x01, 0x68, 0x89], [0x02, 0x01, 0x02, 0x80, 0x81, 0x05], [0x06, 0x07, 0x08,
    0x6c, 0xff]]⟩
  sent := []
  random _ := ⟨[0, 0, 0, 0], rfl⟩
  drawn := 0

theorem message_survives_chunking_sampleConn :
    ∃ c', recv.exec sampleConn = (.ok (.text "hi"), c') ∧
      c'.sent = [encodeFrame opPong [1, 2] (some ⟨[0, 0, 0, 0], rfl⟩)] ∧
      c'.input.pending = [0xff] := by
  obtain ⟨hmessage, -⟩ := message_survives_chunking sampleConn (by decide)
  obtain ⟨c', hexec, hsent, hpending, -⟩ := hmessage (.text "hi") sampleFragments [0xff]
    (by simp [sampleFragments]) (by decide +kernel) (by decide +kernel) (by decide +kernel)
    (by decide +kernel)
  exact ⟨c', hexec, hsent, hpending⟩

end Jamswap.Client
