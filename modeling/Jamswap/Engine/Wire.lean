import Jamswap.Engine.Clearing

/-!
# The binary wire codec

Orders, signed orders, bindings and the auth trailer in their fixed-width little-endian layouts,
each encoder next to its decoder, as the service and the builder share them. Decoding inverts
encoding (`decodeOrders_encodeOrders`, `decodeBindings_encodeBindings`, `parseAuthTrailer_push`),
and a book whose bytes are canonical is recovered by decoding and encoding it
(`encodeOrders_decodeOrders`).
-/

namespace Jamswap.Engine

open Library

/-! ### Orders -/

/-- account(4) ‖ id(4) ‖ side(1) ‖ price(4) ‖ qty(4). -/
def orderLen : ℕ := 17

/-- The wire byte of a side: 0 for a buy, 1 for a sell. -/
def Side.byte : Side → UInt8
  | .buy => 0
  | .sell => 1

/-- Any byte but 0 reads as a sell. -/
def Side.ofByte (x : UInt8) : Side := if x = 0 then .buy else .sell

@[simp] theorem Side.ofByte_byte (s : Side) : Side.ofByte s.byte = s := by
  cases s <;> rfl

def encodeOrder (o : Order) : Bytes :=
  u32Bytes o.account ++ u32Bytes o.id ++ [o.side.byte] ++ u32Bytes o.price ++ u32Bytes o.qty

def encodeOrders (orders : List Order) : Bytes := orders.flatMap encodeOrder

def decodeOrder (b : Bytes) : Order where
  account := u32At b 0
  id := u32At b 4
  side := Side.ofByte (byteAt b 8)
  price := u32At b 9
  qty := u32At b 13

def decodeOrders (data : Bytes) : List Order := (records orderLen data).map decodeOrder

@[simp] theorem length_encodeOrder (o : Order) : (encodeOrder o).length = orderLen := by
  simp [encodeOrder, orderLen]

@[simp] theorem decodeOrder_encodeOrder (o : Order) : decodeOrder (encodeOrder o) = o := by
  have haccount : Cursor (encodeOrder o) 0 (u32Bytes o.account)
      (u32Bytes o.id ++ ([o.side.byte] ++ (u32Bytes o.price ++ (u32Bytes o.qty ++ [])))) := by
    simpa [encodeOrder] using Cursor.start (u32Bytes o.account) _
  have hid := haccount.next (j := 4) (by simp)
  have hside := hid.next (j := 8) (by simp)
  have hprice := hside.next (j := 9) (by simp)
  have hqty := hprice.next (j := 13) (by simp)
  ext1
  · exact haccount.u32At_eq
  · exact hid.u32At_eq
  · exact (congrArg Side.ofByte hside.byteAt_eq).trans (Side.ofByte_byte o.side)
  · exact hprice.u32At_eq
  · exact hqty.u32At_eq

theorem length_encodeOrders (orders : List Order) :
    (encodeOrders orders).length = orders.length * orderLen :=
  length_flatMap_of_width encodeOrder length_encodeOrder orders

@[simp] theorem decodeOrders_encodeOrders (orders : List Order) :
    decodeOrders (encodeOrders orders) = orders := by
  rw [decodeOrders, encodeOrders, records_flatMap (by decide) encodeOrder length_encodeOrder,
    List.map_map]
  exact (List.map_congr_left fun o _ ↦ decodeOrder_encodeOrder o).trans (List.map_id _)

theorem length_decodeOrders (data : Bytes) :
    (decodeOrders data).length = data.length / orderLen := by
  rw [decodeOrders, List.length_map, length_records]

/-- Whole records only, with a side byte of 0 or 1: the books the engine itself writes. -/
def CanonicalBook (data : Bytes) : Prop :=
  orderLen ∣ data.length ∧ ∀ r ∈ records orderLen data, byteAt r 8 = 0 ∨ byteAt r 8 = 1

theorem encodeOrder_decodeOrder {b : Bytes} (hlen : b.length = orderLen)
    (hside : byteAt b 8 = 0 ∨ byteAt b 8 = 1) : encodeOrder (decodeOrder b) = b := by
  have h17 : b.length = 17 := hlen
  have hbyte : [(Side.ofByte (byteAt b 8)).byte] = slice b 8 9 := by
    rw [← singleton_byteAt (by omega)]
    rcases hside with h | h <;> rw [h] <;> rfl
  rw [encodeOrder]
  simp only [decodeOrder]
  rw [hbyte, u32Bytes_u32At (by omega), u32Bytes_u32At (by omega), u32Bytes_u32At (by omega),
    u32Bytes_u32At (by omega)]
  rw [slice_append_slice b (by omega) (by omega), slice_append_slice b (by omega) (by omega),
    slice_append_slice b (by omega) (by omega), slice_append_slice b (by omega) (by omega),
    slice, List.drop_zero]
  exact List.take_of_length_le (by omega)

variable {data s : Bytes}

/-- Decoding a canonical book and encoding it again gives the same bytes. -/
theorem encodeOrders_decodeOrders (h : CanonicalBook data) :
    encodeOrders (decodeOrders data) = data := by
  obtain ⟨hdvd, hside⟩ := h
  apply flatMap_map_records (by decide) hdvd
  intro r hr
  exact encodeOrder_decodeOrder (length_of_mem_records hr) (hside r hr)

theorem canonicalBook_encodeOrders (orders : List Order) : CanonicalBook (encodeOrders orders) := by
  refine ⟨⟨orders.length, ?_⟩, ?_⟩
  · rw [length_encodeOrders, Nat.mul_comm]
  · intro r hr
    rw [encodeOrders, records_flatMap (by decide) encodeOrder length_encodeOrder] at hr
    obtain ⟨o, -, rfl⟩ := List.mem_map.mp hr
    have hstart : Cursor (encodeOrder o) 8 [o.side.byte] (u32Bytes o.price ++ u32Bytes o.qty) := by
      have h : Cursor (encodeOrder o) 0 (u32Bytes o.account ++ u32Bytes o.id)
          ([o.side.byte] ++ (u32Bytes o.price ++ u32Bytes o.qty)) := by
        simpa [encodeOrder] using Cursor.start (u32Bytes o.account ++ u32Bytes o.id) _
      exact h.next (by simp)
    rw [hstart.byteAt_eq]
    cases o.side with
    | buy => exact Or.inl rfl
    | sell => exact Or.inr rfl

/-- Flags beside a signed order. -/
def flagMarket : UInt8 := 1

def flagSealed : UInt8 := 2

def hasFlag (flags flag : UInt8) : Bool := decide (flags &&& flag ≠ 0)

/-- order(17) ‖ flags(1) ‖ signed_price(4) ‖ seq(8) ‖ pubkey(32) ‖ sig(64). -/
def signedOrderLen : ℕ := orderLen + 1 + 4 + 8 + 32 + 64

structure SignedOrder where
  order : Order
  flags : UInt8
  signedPrice : UInt32
  seq : UInt64
  pubkey : Bytes32
  sig : FixedBytes 64
  deriving DecidableEq

def encodeSignedOrder (s : SignedOrder) : Bytes :=
  encodeOrder s.order ++ [s.flags] ++ u32Bytes s.signedPrice ++ u64Bytes s.seq ++ s.pubkey.val ++
    s.sig.val

def encodeSignedOrders (orders : List SignedOrder) : Bytes := orders.flatMap encodeSignedOrder

def decodeSignedOrders (data : Bytes) : List SignedOrder :=
  (records signedOrderLen data).filterMap fun s ↦
    (decodeOrders (slice s 0 orderLen)).head?.map fun order ↦
      { order
        flags := byteAt s 17
        signedPrice := u32At s 18
        seq := u64At s 22
        pubkey := FixedBytes.ofBytes 32 (slice s 30 62)
        sig := FixedBytes.ofBytes 64 (slice s 62 126) }

@[simp] theorem length_encodeSignedOrder (s : SignedOrder) :
    (encodeSignedOrder s).length = signedOrderLen := by
  simp [encodeSignedOrder, signedOrderLen, orderLen]

theorem length_encodeSignedOrders (orders : List SignedOrder) :
    (encodeSignedOrders orders).length = orders.length * signedOrderLen :=
  length_flatMap_of_width encodeSignedOrder length_encodeSignedOrder orders

@[simp] theorem decodeSignedOrders_encodeSignedOrders (orders : List SignedOrder) :
    decodeSignedOrders (encodeSignedOrders orders) = orders := by
  rw [decodeSignedOrders, encodeSignedOrders,
    records_flatMap (by decide) encodeSignedOrder length_encodeSignedOrder, List.filterMap_map]
  refine (List.filterMap_congr fun s _ ↦ ?_).trans List.filterMap_some
  have horder : Cursor (encodeSignedOrder s) 0 (encodeOrder s.order) ([s.flags] ++
      (u32Bytes s.signedPrice ++ (u64Bytes s.seq ++ (s.pubkey.val ++ (s.sig.val ++ []))))) := by
    simpa [encodeSignedOrder] using Cursor.start (encodeOrder s.order) _
  have hflags := horder.next (j := 17) (by simp [orderLen])
  have hprice := hflags.next (j := 18) (by simp)
  have hseq := hprice.next (j := 22) (by simp)
  have hpubkey := hseq.next (j := 30) (by simp)
  have hsig := hpubkey.next (j := 62) (by simp)
  have hdecoded : decodeOrders (encodeOrder s.order) = [s.order] := by
    simpa [encodeOrders] using decodeOrders_encodeOrders [s.order]
  simp only [Function.comp_apply]
  rw [horder.slice_eq (by simp [orderLen]), hdecoded, hpubkey.slice_eq (by simp),
    hsig.slice_eq (by simp), hflags.byteAt_eq, hprice.u32At_eq, hseq.u64At_eq]
  simp

/-- A whole record holds a whole order. -/
theorem decodeOrders_signed (hlen : s.length = signedOrderLen) :
    decodeOrders (slice s 0 orderLen) = [decodeOrder (slice s 0 orderLen)] := by
  have hslice : (slice s 0 orderLen).length = orderLen :=
    length_slice s 0 orderLen (by rw [hlen]; decide)
  have hrecords := records_append (by decide) hslice []
  rw [List.append_nil, records_nil] at hrecords
  rw [decodeOrders, hrecords, List.map_singleton]

/-- What `decodeSignedOrders` reads off one record. -/
def decodeSignedOrder (s : Bytes) : SignedOrder where
  order := decodeOrder (slice s 0 orderLen)
  flags := byteAt s 17
  signedPrice := u32At s 18
  seq := u64At s 22
  pubkey := FixedBytes.ofBytes 32 (slice s 30 62)
  sig := FixedBytes.ofBytes 64 (slice s 62 126)

theorem decodeSignedOrders_eq (data : Bytes) :
    decodeSignedOrders data = (records signedOrderLen data).map decodeSignedOrder := by
  rw [decodeSignedOrders, ← List.filterMap_eq_map]
  refine List.filterMap_congr fun s hs ↦ ?_
  rw [decodeOrders_signed (length_of_mem_records hs)]
  rfl

theorem encodeSignedOrder_decodeSignedOrder (hlen : s.length = signedOrderLen)
    (hside : byteAt s 8 = 0 ∨ byteAt s 8 = 1) : encodeSignedOrder (decodeSignedOrder s) = s := by
  have h126 : s.length = 126 := hlen
  have horder : encodeOrder (decodeOrder (slice s 0 orderLen)) = slice s 0 17 := by
    refine encodeOrder_decodeOrder (length_slice s 0 orderLen (by rw [h126]; decide)) ?_
    rw [byteAt_slice (by decide)]
    exact hside
  rw [encodeSignedOrder]
  simp only [decodeSignedOrder]
  rw [horder, singleton_byteAt (by omega), u32Bytes_u32At (by omega), u64Bytes_u64At (by omega),
    FixedBytes.val_ofBytes (length_slice s 30 62 (by omega)),
    FixedBytes.val_ofBytes (length_slice s 62 126 (by omega))]
  rw [slice_append_slice s (by omega) (by omega), slice_append_slice s (by omega) (by omega),
    slice_append_slice s (by omega) (by omega), slice_append_slice s (by omega) (by omega),
    slice_append_slice s (by omega) (by omega), slice, List.drop_zero]
  exact List.take_of_length_le (by omega)

/-- Whole records with a side byte of 0 or 1 in each order are what their orders encode to. -/
theorem encodeSignedOrders_decodeSignedOrders (hdvd : signedOrderLen ∣ data.length)
    (hside : ∀ r ∈ records signedOrderLen data, byteAt r 8 = 0 ∨ byteAt r 8 = 1) :
    encodeSignedOrders (decodeSignedOrders data) = data := by
  rw [decodeSignedOrders_eq]
  apply flatMap_map_records (by decide) hdvd
  intro r hr
  exact encodeSignedOrder_decodeSignedOrder (length_of_mem_records hr) (hside r hr)

/-- What refine reports about each admitted new order:
account(4) ‖ seq(8) ‖ pubkey(32) ‖ flags(1) ‖ price(4). -/
def bindingLen : ℕ := 4 + 8 + 32 + 1 + 4

@[ext]
structure Binding where
  account : UInt32
  seq : UInt64
  pubkey : Bytes32
  flags : UInt8
  price : UInt32
  deriving DecidableEq

def encodeBinding (b : Binding) : Bytes :=
  u32Bytes b.account ++ u64Bytes b.seq ++ b.pubkey.val ++ [b.flags] ++ u32Bytes b.price

def encodeBindings (bindings : List Binding) : Bytes := bindings.flatMap encodeBinding

def decodeBinding (s : Bytes) : Binding where
  account := u32At s 0
  seq := u64At s 4
  pubkey := FixedBytes.ofBytes 32 (slice s 12 44)
  flags := byteAt s 44
  price := u32At s 45

def decodeBindings (data : Bytes) : List Binding := (records bindingLen data).map decodeBinding

@[simp] theorem length_encodeBinding (b : Binding) : (encodeBinding b).length = bindingLen := by
  simp [encodeBinding, bindingLen]

@[simp] theorem decodeBinding_encodeBinding (b : Binding) :
    decodeBinding (encodeBinding b) = b := by
  have haccount : Cursor (encodeBinding b) 0 (u32Bytes b.account)
      (u64Bytes b.seq ++ (b.pubkey.val ++ ([b.flags] ++ (u32Bytes b.price ++ [])))) := by
    simpa [encodeBinding] using Cursor.start (u32Bytes b.account) _
  have hseq := haccount.next (j := 4) (by simp)
  have hpubkey := hseq.next (j := 12) (by simp)
  have hflags := hpubkey.next (j := 44) (by simp)
  have hprice := hflags.next (j := 45) (by simp)
  ext1
  · exact haccount.u32At_eq
  · exact hseq.u64At_eq
  · change FixedBytes.ofBytes 32 (slice (encodeBinding b) 12 44) = b.pubkey
    rw [hpubkey.slice_eq (by simp), FixedBytes.ofBytes_val]
  · exact hflags.byteAt_eq
  · exact hprice.u32At_eq

theorem length_encodeBindings (bindings : List Binding) :
    (encodeBindings bindings).length = bindings.length * bindingLen :=
  length_flatMap_of_width encodeBinding length_encodeBinding bindings

@[simp] theorem decodeBindings_encodeBindings (bindings : List Binding) :
    decodeBindings (encodeBindings bindings) = bindings := by
  rw [decodeBindings, encodeBindings,
    records_flatMap (by decide) encodeBinding length_encodeBinding, List.map_map]
  exact (List.map_congr_left fun b _ ↦ decodeBinding_encodeBinding b).trans (List.map_id _)

theorem encodeBinding_decodeBinding (hlen : s.length = bindingLen) :
    encodeBinding (decodeBinding s) = s := by
  have h49 : s.length = 49 := hlen
  rw [encodeBinding]
  simp only [decodeBinding]
  rw [singleton_byteAt (by omega), u32Bytes_u32At (by omega), u32Bytes_u32At (by omega),
    u64Bytes_u64At (by omega), FixedBytes.val_ofBytes (length_slice s 12 44 (by omega))]
  rw [slice_append_slice s (by omega) (by omega), slice_append_slice s (by omega) (by omega),
    slice_append_slice s (by omega) (by omega), slice_append_slice s (by omega) (by omega), slice,
    List.drop_zero]
  exact List.take_of_length_le (by omega)

theorem encodeBindings_decodeBindings (hdvd : bindingLen ∣ data.length) :
    encodeBindings (decodeBindings data) = data := by
  apply flatMap_map_records (by decide) hdvd
  intro r hr
  exact encodeBinding_decodeBinding (length_of_mem_records hr)

/-! ### Clearings -/

def fillLen : ℕ := 8

def encodeFill (f : Fill) : Bytes := u32Bytes f.id ++ u32Bytes f.qty

def decodeFill (b : Bytes) : Fill := ⟨u32At b 0, u32At b 4⟩

/-- price(4) ‖ volume(8) ‖ n_fills(4) ‖ n × (id(4) ‖ qty(4)). -/
def encodeClearing (c : Clearing) : Bytes :=
  u32Bytes c.price ++ u64Bytes c.volume ++ u32Bytes (UInt32.ofNat c.fills.length) ++
    c.fills.flatMap encodeFill

def decodeClearing (data : Bytes) : Option Clearing :=
  if data.length < 16 then none
  else
    let n := (u32At data 12).toNat
    if data.length < 16 + n * fillLen then none
    else some ⟨u32At data 0, u64At data 4,
      (records fillLen (slice data 16 (16 + n * fillLen))).map decodeFill⟩

@[simp] theorem length_encodeFill (f : Fill) : (encodeFill f).length = fillLen := by
  simp [encodeFill, fillLen]

@[simp] theorem decodeFill_encodeFill (f : Fill) : decodeFill (encodeFill f) = f := by
  have hid : Cursor (encodeFill f) 0 (u32Bytes f.id) (u32Bytes f.qty ++ []) := by
    simpa [encodeFill] using Cursor.start (u32Bytes f.id) _
  have hqty := hid.next (j := 4) (by simp)
  rw [decodeFill, hid.u32At_eq, hqty.u32At_eq]

/-- A clearing with fewer than `2 ^ 32` fills is read back as it was written. -/
theorem decodeClearing_encodeClearing {c : Clearing} (hcount : c.fills.length < 2 ^ 32) :
    decodeClearing (encodeClearing c) = some c := by
  have hlen : (c.fills.flatMap encodeFill).length = c.fills.length * fillLen :=
    length_flatMap_of_width encodeFill length_encodeFill c.fills
  have hprice : Cursor (encodeClearing c) 0 (u32Bytes c.price) (u64Bytes c.volume ++
      (u32Bytes (UInt32.ofNat c.fills.length) ++ (c.fills.flatMap encodeFill ++ []))) := by
    simpa [encodeClearing] using Cursor.start (u32Bytes c.price) _
  have hvolume := hprice.next (j := 4) (by simp)
  have hn := hvolume.next (j := 12) (by simp)
  have hfills := hn.next (j := 16) (by simp)
  have htotal := hfills.length_eq
  rw [hlen, List.length_nil] at htotal
  have hnValue : (u32At (encodeClearing c) 12).toNat = c.fills.length := by
    rw [hn.u32At_eq, UInt32.toNat_ofNat', Nat.mod_eq_of_lt hcount]
  have hdecoded : (records fillLen (c.fills.flatMap encodeFill)).map decodeFill = c.fills := by
    rw [records_flatMap (by decide) encodeFill length_encodeFill, List.map_map]
    exact (List.map_congr_left fun f _ ↦ decodeFill_encodeFill f).trans (List.map_id _)
  unfold decodeClearing
  simp only [hnValue]
  rw [if_neg (by omega), if_neg (by omega), hprice.u32At_eq, hvolume.u64At_eq,
    hfills.slice_eq (by rw [hlen]), hdecoded]

/-! ### The auth trailer -/

/-- The verification trailer every round output ends with:
`[nb:u16][bindings][book_hash 32][round_id 32][book]`. -/
structure AuthTrailer where
  bindings : Bytes
  bookHash : Bytes
  roundId : Bytes32
  book : Bytes
  deriving DecidableEq

def pushAuthTrailer (bindings : List Binding) (bookHash roundId : Bytes32) (book : Bytes) : Bytes :=
  u16Bytes (UInt16.ofNat bindings.length) ++ encodeBindings bindings ++ bookHash.val ++
    roundId.val ++ book

/-- The trailer starting at `off`; `none` if truncated anywhere. -/
def parseAuthTrailer (out : Bytes) (off : ℕ) : Option AuthTrailer := do
  let nb := (u16At (← sub? out off (off + 2)) 0).toNat
  let hOff := off + 2 + nb * bindingLen
  let roundId ← sub? out (hOff + 32) (hOff + 64)
  let bindings ← sub? out (off + 2) hOff
  let bookHash ← sub? out hOff (hOff + 32)
  let book ← suffix? out (hOff + 64)
  return { bindings, bookHash, roundId := FixedBytes.ofBytes 32 roundId, book }

/-- A trailer with fewer than `2 ^ 16` bindings is read back as it was written. -/
theorem parseAuthTrailer_push {out before : Bytes} {bindings : List Binding}
    {bookHash roundId : Bytes32} {book : Bytes} (hcount : bindings.length < 2 ^ 16)
    (hout : out = before ++ pushAuthTrailer bindings bookHash roundId book) :
    parseAuthTrailer out before.length =
      some ⟨encodeBindings bindings, bookHash.val, roundId, book⟩ := by
  have hstart : Cursor out 0 before (u16Bytes (UInt16.ofNat bindings.length) ++
      (encodeBindings bindings ++ (bookHash.val ++ (roundId.val ++ (book ++ []))))) := by
    subst hout
    simpa [pushAuthTrailer] using Cursor.start before _
  have hnb := hstart.next (j := before.length) (by simp)
  have hbindings := hnb.next (j := before.length + 2) (by simp)
  set hOff := before.length + 2 + bindings.length * bindingLen with hOffDef
  have hhash := hbindings.next (j := hOff) (by rw [length_encodeBindings])
  have hrid := hhash.next (j := hOff + 32) (by simp)
  have hnbValue : (u16At (u16Bytes (UInt16.ofNat bindings.length)) 0).toNat = bindings.length := by
    have hread := (Cursor.start (u16Bytes (UInt16.ofNat bindings.length)) []).u16At_eq
    rw [List.append_nil] at hread
    rw [hread, UInt16.toNat_ofNat', Nat.mod_eq_of_lt hcount]
  unfold parseAuthTrailer
  rw [hnb.sub?_eq (by simp)]
  simp only [Option.bind_eq_bind, Option.bind_some, hnbValue, ← hOffDef]
  rw [hrid.sub?_eq (by simp), hbindings.sub?_eq (by rw [length_encodeBindings]),
    hhash.sub?_eq (by simp), hrid.suffix?_eq (j := hOff + 64) (by simp)]
  simp

end Jamswap.Engine
