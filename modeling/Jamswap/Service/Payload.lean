import Jamswap.Engine.Probe
import Jamswap.Service.Delivery

/-!
# Round payloads as the builder writes them

The builder's side of the round formats: the public section every round type ends with, and the
SMATCH, REVEAL and ENC_ROUND payloads around it. Refine reads back what was written
(`parsePublicSection_eq`, `roundInput_smatchPayload`, `roundInput_reveals`,
`roundInput_encRoundPayload`), and drops the round exactly when a signature or a decryption fails.
So a builder can put any list of orders into a round by choosing the bytes of the book and of the
reveals.
-/

namespace Jamswap.Service

open Library Engine

/-- `[ns:u16][signed orders][np:u16][pruned (account, oid) pairs][on-chain book, byte-exact]`. -/
def publicSectionBytes (signed : List SignedOrder) (pruned : List (UInt32 × UInt32))
    (rawBook : Bytes) : Bytes :=
  u16Bytes (UInt16.ofNat signed.length) ++ encodeSignedOrders signed ++
    u16Bytes (UInt16.ofNat pruned.length) ++
    pruned.flatMap (fun e ↦ u32Bytes e.1 ++ u32Bytes e.2) ++ rawBook

theorem publicSectionBytes_ne_nil (signed : List SignedOrder) (pruned : List (UInt32 × UInt32))
    (rawBook : Bytes) : publicSectionBytes signed pruned rawBook ≠ [] := by
  intro hnil
  have hlen := congrArg List.length hnil
  simp [publicSectionBytes] at hlen

/-- `[tag][market][base][quote]`. -/
def matchHeader (tag : Tag) (market base quote : UInt32) : Bytes :=
  [tag.byte] ++ u32Bytes market ++ u32Bytes base ++ u32Bytes quote

def smatchPayload (market base quote : UInt32) (sec : Bytes) : Bytes :=
  matchHeader .smatch market base quote ++ sec

/-- The reveals follow their commitments, each list behind its byte length. -/
def revealPayload (P : Primitives) (market base quote : UInt32) (reveals : List Bytes)
    (sec : Bytes) : Bytes :=
  let commits := reveals.flatMap fun r ↦ (commitment P r).val
  matchHeader .reveal market base quote ++ u32Bytes (UInt32.ofNat commits.length) ++ commits ++
    u32Bytes (UInt32.ofNat reveals.flatten.length) ++ reveals.flatten ++ sec

/-! ### Reading a public section back -/

theorem length_matchHeader (tag : Tag) (market base quote : UInt32) :
    (matchHeader tag market base quote).length = 13 := by
  simp [matchHeader]

theorem isPruned_pairs (pruned : List (UInt32 × UInt32)) (o : Order) :
    isPruned (pruned.flatMap fun e ↦ u32Bytes e.1 ++ u32Bytes e.2) o =
      pruned.contains (o.account, o.id) := by
  rw [isPruned, records_flatMap (by decide) _ (by simp), List.any_map, ← List.any_beq]
  refine congrArg (pruned.any ·) (funext fun e ↦ ?_)
  have hfst : u32At (u32Bytes e.1 ++ u32Bytes e.2) 0 = e.1 := by simp
  have hsnd : u32At (u32Bytes e.1 ++ u32Bytes e.2) 4 = e.2 := by
    have h := Cursor.start (u32Bytes e.1) (u32Bytes e.2 ++ [])
    rw [List.append_nil] at h
    exact (h.next (j := 4) (by simp)).u32At_eq
  simp only [Function.comp_apply, hfst, hsnd]
  rfl

variable {n : ℕ} {rest : Bytes} {reveals : List Bytes} {cts : List (Bytes × Bytes)}
  {pub hidden : List Label}

theorem u16At_ofNat (h : n < 2 ^ 16) : (u16At (u16Bytes (UInt16.ofNat n)) 0).toNat = n := by
  have hread := (Cursor.start (u16Bytes (UInt16.ofNat n)) []).u16At_eq
  rw [List.append_nil] at hread
  rw [hread, UInt16.toNat_ofNat', Nat.mod_eq_of_lt h]

variable {P : Primitives} {market base quote : UInt32} {signed : List SignedOrder}
  {pruned : List (UInt32 × UInt32)} {rawBook : Bytes} {admitted : List (Order × Binding)}
  {data : Bytes} {off : ℕ}

/-- A section is read the same wherever it stands in the payload. -/
theorem parsePublicSection_drop {sec : Bytes} (hdata : Cursor data off sec []) :
    parsePublicSection P data off market = parsePublicSection P sec 0 market := by
  have hsec : sec = data.drop off := by rw [hdata.reads, List.append_nil]
  rw [hsec]
  unfold parsePublicSection
  simp only [sub?_drop hdata.inside, suffix?_drop hdata.inside, Nat.zero_add, Nat.add_zero,
    Nat.add_assoc]

/-- The section refine makes of what a builder wrote. -/
def builtSection (P : Primitives) (pruned : List (UInt32 × UInt32)) (rawBook : Bytes)
    (admitted : List (Order × Binding)) : PublicSection where
  book := (decodeOrders rawBook).filter fun o ↦ !pruned.contains (o.account, o.id)
  admitted := admitted
  bookHash := commitment P rawBook

/-- Refine reads the bytes `publicSectionBytes` writes, unless it finds a signature wanting. -/
theorem parsePublicSection_eq (hsigned : signed.length < 2 ^ 16) (hpruned : pruned.length < 2 ^ 16)
    (hdata : Cursor data off (publicSectionBytes signed pruned rawBook) []) :
    parsePublicSection P data off market =
      (signed.mapM (admitSigned P market)).map (builtSection P pruned rawBook) := by
  have hns : Cursor data off (u16Bytes (UInt16.ofNat signed.length))
      (encodeSignedOrders signed ++ (u16Bytes (UInt16.ofNat pruned.length) ++
        (pruned.flatMap (fun e ↦ u32Bytes e.1 ++ u32Bytes e.2) ++ rawBook))) :=
    ⟨hdata.inside, by simpa [publicSectionBytes] using hdata.reads⟩
  have hblob := hns.next (j := off + 2) (by simp)
  have hnp := hblob.next (j := off + 2 + signed.length * signedOrderLen)
    (by rw [length_encodeSignedOrders])
  have hpairs := hnp.next (j := off + 2 + signed.length * signedOrderLen + 2) (by simp)
  have hpairsLen : (pruned.flatMap fun e ↦ u32Bytes e.1 ++ u32Bytes e.2).length =
      pruned.length * 8 := length_flatMap_of_width _ (by simp) pruned
  unfold parsePublicSection
  simp only [hns.sub?_eq (j := off + 2) (by simp), Option.bind_eq_bind, Option.bind_some,
    u16At_ofNat hsigned]
  simp only [hblob.sub?_eq (by rw [length_encodeSignedOrders]), Option.bind_some,
    decodeSignedOrders_encodeSignedOrders, ne_eq, not_true_eq_false, if_false]
  rw [Option.map_eq_bind]
  refine congrArg (Option.bind _) (funext fun admitted ↦ ?_)
  simp only [hnp.sub?_eq (j := off + 2 + signed.length * signedOrderLen + 2) (by simp),
    Option.bind_some, u16At_ofNat hpruned]
  rw [hpairs.sub?_eq (by rw [hpairsLen]), hpairs.suffix?_eq (by rw [hpairsLen])]
  simp only [Option.bind_some, isPruned_pairs]
  rfl

/-! ### Reading a round back -/

theorem tagOf_matchHeader (tag : Tag) (market base quote : UInt32) (rest : Bytes) :
    tagOf (matchHeader tag market base quote ++ rest) = some tag := by
  simp [matchHeader, tagOf]

/-- The header fields are where every round parser reads them. -/
theorem matchHeader_fields {tag : Tag} (hdata : data = matchHeader tag market base quote ++ rest) :
    u32At data 1 = market ∧ u32At data 5 = base ∧ u32At data 9 = quote := by
  have htag : Cursor data 0 [tag.byte]
      (u32Bytes market ++ (u32Bytes base ++ (u32Bytes quote ++ rest))) := by
    subst hdata
    simpa [matchHeader] using Cursor.start [tag.byte] _
  have hmarket := htag.next (j := 1) (by simp)
  have hbase := hmarket.next (j := 5) (by simp)
  have hquote := hbase.next (j := 9) (by simp)
  exact ⟨hmarket.u32At_eq, hbase.u32At_eq, hquote.u32At_eq⟩

/-- The order a 49-byte reveal opens, with the set entry it consumes. -/
def openReveal (P : Primitives) (reveal : Bytes) : Opened :=
  let o := decodeOrder (slice reveal 0 orderLen)
  ⟨o, (commitment P reveal).val ++ u32Bytes o.account⟩

theorem admitReveal_of_mem {reveal : Bytes} (hmem : reveal ∈ reveals)
    (hlen : reveal.length = revealLen) :
    admitReveal P (reveals.flatMap fun r ↦ (commitment P r).val) reveal =
      some (openReveal P reveal) := by
  have hcommits : records 32 (reveals.flatMap fun r ↦ (commitment P r).val) =
      reveals.map fun r ↦ (commitment P r).val :=
    records_flatMap (by decide) _ (fun r ↦ FixedBytes.length_val _) reveals
  have hslice : (slice reveal 0 orderLen).length = orderLen := by
    rw [length_slice _ _ _ (by rw [hlen]; decide)]
    rfl
  have hdecoded : decodeOrders (slice reveal 0 orderLen) =
      [decodeOrder (slice reveal 0 orderLen)] := by
    have h := records_append (by decide) hslice []
    rw [List.append_nil, records_nil] at h
    rw [decodeOrders, h, List.map_singleton]
  have hcontains : (reveals.map fun r ↦ (commitment P r).val).contains (commitment P reveal).val :=
    List.contains_iff_mem.mpr (List.mem_map_of_mem hmem)
  simp only [admitReveal, hcommits, hcontains, if_true, hdecoded]
  rfl

/-- A SMATCH payload is read back. -/
theorem roundInput_smatchPayload (hsigned : signed.length < 2 ^ 16)
    (hpruned : pruned.length < 2 ^ 16) :
    roundInput P (smatchPayload market base quote (publicSectionBytes signed pruned rawBook)) =
      (signed.mapM (admitSigned P market)).map fun admitted ↦
        ⟨.smatch, market, base, quote, builtSection P pruned rawBook admitted⟩ := by
  set sec := publicSectionBytes signed pruned rawBook
  set data := smatchPayload market base quote sec with hdata
  have hheader : data = matchHeader .smatch market base quote ++ (sec ++ []) := by
    rw [List.append_nil, hdata, smatchPayload]
  have hstart : Cursor data 0 (matchHeader .smatch market base quote) (sec ++ []) := by
    rw [hheader]
    exact Cursor.start _ _
  have hsec := hstart.next (j := 13) (by simp [length_matchHeader])
  have htotal := hsec.length_eq
  obtain ⟨hmarket, hbase, hquote⟩ := matchHeader_fields hheader
  have htag : data.head?.bind Tag.ofByte = some .smatch := by
    rw [hheader]
    exact tagOf_matchHeader _ _ _ _ _
  unfold roundInput
  rw [htag]
  simp only [smatchInput, hmarket, hbase, hquote]
  rw [if_pos (by omega), parsePublicSection_eq hsigned hpruned hsec]
  cases signed.mapM (admitSigned P market) <;> rfl

/-- A REVEAL payload is read back with every reveal opened. -/
theorem roundInput_reveals (hreveals : ∀ r ∈ reveals, r.length = revealLen)
    (hcount : reveals.length * 49 < 2 ^ 32) (hsigned : signed.length < 2 ^ 16)
    (hpruned : pruned.length < 2 ^ 16) :
    roundInput P (revealPayload P market base quote reveals
        (publicSectionBytes signed pruned rawBook)) =
      (signed.mapM (admitSigned P market)).map fun admitted ↦
        ⟨.reveal (reveals.map (openReveal P)), market, base, quote,
          builtSection P pruned rawBook admitted⟩ := by
  set sec := publicSectionBytes signed pruned rawBook
  set commits := reveals.flatMap fun r ↦ (commitment P r).val with hcommits
  set data := revealPayload P market base quote reveals sec with hdata
  have hcommitsLen : commits.length = reveals.length * 32 :=
    length_flatMap_of_width _ (fun r ↦ FixedBytes.length_val _) reveals
  have hflattenLen : reveals.flatten.length = reveals.length * 49 := by
    rw [List.length_flatten, List.map_congr_left hreveals, List.map_const', List.sum_replicate]
    rfl
  have hheader : data = matchHeader .reveal market base quote ++
      (u32Bytes (UInt32.ofNat commits.length) ++ (commits ++
        (u32Bytes (UInt32.ofNat reveals.flatten.length) ++ (reveals.flatten ++ (sec ++ []))))) := by
    simp [hdata, revealPayload, hcommits]
  have hstart : Cursor data 0 (matchHeader .reveal market base quote)
      (u32Bytes (UInt32.ofNat commits.length) ++ (commits ++
        (u32Bytes (UInt32.ofNat reveals.flatten.length) ++ (reveals.flatten ++ (sec ++ []))))) := by
    rw [hheader]
    exact Cursor.start _ _
  have hcl := hstart.next (j := 13) (by simp [length_matchHeader])
  have hblob := hcl.next (j := 17) (by simp)
  have hrl := hblob.next (j := 17 + commits.length) rfl
  have hopen := hrl.next (j := 21 + commits.length) (by simp; omega)
  have htotal := hopen.length_eq
  have hclValue : (u32At data 13).toNat = commits.length := by
    rw [hcl.u32At_eq, UInt32.toNat_ofNat', Nat.mod_eq_of_lt (by omega)]
  have hrlValue : (u32At data (17 + commits.length)).toNat = reveals.flatten.length := by
    rw [hrl.u32At_eq, UInt32.toNat_ofNat', Nat.mod_eq_of_lt (by omega)]
  obtain ⟨hmarket, hbase, hquote⟩ := matchHeader_fields hheader
  have hsec := hopen.next (j := 21 + commits.length + reveals.flatten.length) rfl
  have hverified : (records revealLen reveals.flatten).filterMap (admitReveal P commits) =
      reveals.map (openReveal P) := by
    rw [← List.flatMap_id, records_flatMap_of_mem (by decide) id hreveals, List.map_id,
      ← List.filterMap_eq_map]
    exact List.filterMap_congr fun r hr ↦ admitReveal_of_mem hr (hreveals r hr)
  have htag : data.head?.bind Tag.ofByte = some .reveal := by
    rw [hheader]
    exact tagOf_matchHeader _ _ _ _ _
  unfold roundInput
  rw [htag]
  simp only [revealInput, hclValue, hrlValue, hmarket, hbase, hquote]
  rw [if_pos (by omega), if_neg (by omega), if_neg (by omega),
    parsePublicSection_eq hsigned hpruned hsec, hblob.slice_eq rfl, hopen.slice_eq rfl, hverified]
  cases signed.mapM (admitSigned P market) <;> rfl

/-! ### Reading an encrypted round back -/

/-- `[C1][body_len][body]`. -/
def encodeCiphertext (ct : Bytes × Bytes) : Bytes := ct.1 ++ [UInt8.ofNat ct.2.length] ++ ct.2

/-- `[tag][market][base][quote][n][pks][m:u16]`, the `m` ciphertexts, then for each the members'
partials, then the public section. -/
def encRoundPayload (market base quote : UInt32) (committee : Bytes) (cts : List (Bytes × Bytes))
    (partials : List Bytes) (sec : Bytes) : Bytes :=
  matchHeader .encRound market base quote ++ committee ++ u16Bytes (UInt16.ofNat cts.length) ++
    cts.flatMap encodeCiphertext ++ partials.flatten ++ sec

theorem parseCiphertexts_eq (hpoint : ∀ ct ∈ cts, ct.1.length = pointLen)
    (hbody : ∀ ct ∈ cts, ct.2.length < 256)
    (hdata : Cursor data off (cts.flatMap encodeCiphertext) rest) :
    parseCiphertexts data cts.length off =
      some (cts, off + (cts.flatMap encodeCiphertext).length) := by
  induction cts generalizing off with
  | nil => rfl
  | cons ct cts ih =>
    have hc1 : Cursor data off ct.1 ([UInt8.ofNat ct.2.length] ++ (ct.2 ++
        (cts.flatMap encodeCiphertext ++ rest))) :=
      ⟨hdata.inside, by rw [hdata.reads, List.flatMap_cons, encodeCiphertext]; simp⟩
    have hpoint' := hpoint ct List.mem_cons_self
    have hlen := hc1.next (j := off + pointLen) (by rw [hpoint'])
    have hblob := hlen.next (j := off + pointLen + 1) rfl
    have hrest := hblob.next (j := off + pointLen + 1 + ct.2.length) rfl
    have hvalue : (UInt8.ofNat ct.2.length).toNat = ct.2.length := by
      rw [UInt8.toNat_ofNat', Nat.mod_eq_of_lt (hbody ct List.mem_cons_self)]
    have hbyte : data[off + pointLen]? = some (UInt8.ofNat ct.2.length) := by
      have hdrop := congrArg List.head? hlen.reads
      rwa [List.head?_drop] at hdrop
    have hih := ih (fun c hc ↦ hpoint c (List.mem_cons_of_mem ct hc))
      (fun c hc ↦ hbody c (List.mem_cons_of_mem ct hc)) hrest
    have hsize : (encodeCiphertext ct).length = pointLen + 1 + ct.2.length := by
      rw [encodeCiphertext, List.length_append, List.length_append, hpoint', List.length_singleton]
    rw [List.length_cons, parseCiphertexts]
    simp only [hc1.sub?_eq (j := off + pointLen) (by rw [hpoint']), hbyte, hvalue,
      Option.bind_eq_bind, Option.bind_some, hblob.sub?_eq rfl, hih, List.flatMap_cons,
      List.length_append, hsize]
    rw [Nat.add_assoc off, Nat.add_assoc off, Nat.add_assoc off]
    rfl

/-- An ENC_ROUND payload is read back with every ciphertext decrypted. -/
theorem roundInput_encRoundPayload {pks : Bytes} {partials : List Bytes} (sec : Bytes)
    (hn : 0 < n) (hn' : n < 256) (hpks : pks.length = n * pointLen) (hcts : cts.length < 2 ^ 16)
    (hpoint : ∀ ct ∈ cts, ct.1.length = pointLen) (hbody : ∀ ct ∈ cts, ct.2.length < 256)
    (hcount : partials.length = cts.length)
    (hpartials : ∀ p ∈ partials, p.length = n * partialLen) :
    roundInput P (encRoundPayload market base quote (UInt8.ofNat n :: pks) cts partials sec) =
      (parsePublicSection P sec 0 market).bind fun ps ↦
        ((cts.zip partials).mapM (admitCiphertext P (committeeKeys (UInt8.ofNat n :: pks)))).map
          fun opened ↦ ⟨.encRound (UInt8.ofNat n :: pks) opened, market, base, quote, ps⟩ := by
  set blob := cts.flatMap encodeCiphertext with hblobDef
  set data := encRoundPayload market base quote (UInt8.ofNat n :: pks) cts partials sec with hdata
  have hpartialsLen : partials.flatten.length = cts.length * n * partialLen := by
    rw [List.length_flatten, List.map_congr_left hpartials, List.map_const', List.sum_replicate,
      hcount, smul_eq_mul, Nat.mul_assoc]
  have hheader : data = matchHeader .encRound market base quote ++ ([UInt8.ofNat n] ++ (pks ++
      (u16Bytes (UInt16.ofNat cts.length) ++ (blob ++ (partials.flatten ++ (sec ++ [])))))) := by
    simp [hdata, encRoundPayload, hblobDef]
  have hstart : Cursor data 0 (matchHeader .encRound market base quote) ([UInt8.ofNat n] ++ (pks ++
      (u16Bytes (UInt16.ofNat cts.length) ++ (blob ++ (partials.flatten ++ (sec ++ [])))))) := by
    rw [hheader]
    exact Cursor.start _ _
  have hsize := hstart.next (j := 13) (by simp [length_matchHeader])
  have hkeys := hsize.next (j := 14) rfl
  have hm := hkeys.next (j := 14 + n * pointLen) (by rw [hpks])
  have hciphers := hm.next (j := 14 + n * pointLen + 2) (by simp)
  have hproofs := hciphers.next (j := 14 + n * pointLen + 2 + blob.length) rfl
  have hsec := hproofs.next
    (j := 14 + n * pointLen + 2 + blob.length + cts.length * n * partialLen) (by rw [hpartialsLen])
  have hbyte : data[13]? = some (UInt8.ofNat n) := by
    have hdrop := congrArg List.head? hsize.reads
    rwa [List.head?_drop] at hdrop
  have hvalue : (UInt8.ofNat n).toNat = n := by
    rw [UInt8.toNat_ofNat', Nat.mod_eq_of_lt hn']
  obtain ⟨hmarket, hbase, hquote⟩ := matchHeader_fields hheader
  have hwidth : 0 < n * partialLen := Nat.mul_pos hn (by decide)
  have htag : data.head?.bind Tag.ofByte = some .encRound := by
    rw [hheader]
    exact tagOf_matchHeader _ _ _ _ _
  unfold roundInput
  rw [htag]
  simp only [encRoundInput, hbyte, Option.bind_eq_bind, Option.bind_some, hvalue, hn.ne', if_false,
    hkeys.sub?_eq (j := 14 + n * pointLen) (by rw [hpks]), hmarket, hbase, hquote]
  rw [hm.sub?_eq (j := 14 + n * pointLen + 2) (by simp), Option.bind_some, u16At_ofNat hcts,
    parseCiphertexts_eq hpoint hbody hciphers, Option.bind_some,
    hproofs.sub?_eq (by rw [hpartialsLen]), Option.bind_some,
    parsePublicSection_drop hsec, records_flatten hwidth hpartials]
  cases parsePublicSection P sec 0 market with
  | none => rfl
  | some ps =>
    simp only [Option.bind_some]
    cases (cts.zip partials).mapM (admitCiphertext P (committeeKeys (UInt8.ofNat n :: pks))) <;> rfl

/-! ### A round with any labels -/

/-- A sealed order's reveal under an all-zero salt. -/
def zeroReveal (o : Order) : Bytes := encodeOrder o ++ List.replicate 32 0

/-- The REVEAL payload that puts a probe into a round: the public labels on the book, the sealed
ones among the reveals. -/
def probeRound (P : Primitives) (pub hidden : List Label) (qtys : List (ℕ × ℕ)) : Bytes :=
  let orders := probe (pub ++ hidden) qtys
  revealPayload P 0 1 2 ((orders.drop pub.length).map zeroReveal)
    (publicSectionBytes [] [] (encodeOrders (orders.take pub.length)))

theorem length_zeroReveal (o : Order) : (zeroReveal o).length = revealLen := by
  simp [zeroReveal, orderLen, revealLen, nonceLen]

theorem openReveal_zeroReveal (P : Primitives) (o : Order) :
    (openReveal P (zeroReveal o)).order = o := by
  have hstart : Cursor (zeroReveal o) 0 (encodeOrder o) (List.replicate 32 0) := Cursor.start _ _
  rw [openReveal, hstart.slice_eq (by simp), decodeOrder_encodeOrder]

/-- The bytes of such a payload. -/
def probeRoundLen (pub hidden : List Label) : ℕ := 25 + 81 * hidden.length + 17 * pub.length

theorem length_probeRound (P : Primitives) (pub hidden : List Label) (qtys : List (ℕ × ℕ)) :
    (probeRound P pub hidden qtys).length = probeRoundLen pub hidden := by
  have hflatten : ∀ os : List Order, ((os.map zeroReveal).flatten).length = os.length * revealLen :=
    fun os ↦ by
      rw [← List.flatMap_def]
      exact length_flatMap_of_width _ length_zeroReveal os
  have hcommits : ∀ os : List Bytes,
      (os.flatMap fun r ↦ (commitment P r).val).length = os.length * 32 :=
    length_flatMap_of_width _ fun r ↦ FixedBytes.length_val _
  simp only [probeRound, revealPayload, publicSectionBytes, List.length_append, length_matchHeader,
    length_u32Bytes, length_u16Bytes, hflatten, hcommits, List.length_map, List.length_drop,
    length_probe, length_encodeOrders, List.length_take, encodeSignedOrders, List.flatMap_nil,
    List.length_nil, probeRoundLen, orderLen, revealLen, nonceLen]
  omega

/-- Refine reads the probe back, its orders split into public and sealed as the labels say. -/
theorem roundInput_probeRound (P : Primitives) {qtys : List (ℕ × ℕ)}
    (hfit : probeRoundLen pub hidden ≤ maxInput) :
    ∃ inp, roundInput P (probeRound P pub hidden qtys) = some inp ∧
      inp.publicOrders = (probe (pub ++ hidden) qtys).take pub.length ∧
      inp.sealedOrders = (probe (pub ++ hidden) qtys).drop pub.length := by
  set reveals := ((probe (pub ++ hidden) qtys).drop pub.length).map zeroReveal with hreveals
  have hlens : ∀ r ∈ reveals, r.length = revealLen := by
    intro r hr
    obtain ⟨o, -, rfl⟩ := List.mem_map.mp hr
    exact length_zeroReveal o
  have hcount : reveals.length * 49 < 2 ^ 32 := by
    rw [hreveals, List.length_map, List.length_drop, length_probe, List.length_append]
    simp only [probeRoundLen, maxInput] at hfit
    omega
  refine ⟨_, roundInput_reveals hlens hcount (by simp) (by simp), ?_, ?_⟩
  · simp [RoundInput.publicOrders, PublicSection.newOrders, builtSection]
  · simp only [RoundInput.sealedOrders, RoundKind.opened, List.map_map]
    exact (List.map_congr_left fun o _ ↦ openReveal_zeroReveal P o).trans (List.map_id _)

/-- Every list of labels that fits into a payload is carried by a round, with any quantities. -/
theorem exists_probeRound (P : Primitives) (hfit : probeRoundLen pub hidden ≤ maxInput)
    (qtys : List (ℕ × ℕ)) :
    ∃ (payload : WorkPayload) (inp : RoundInput), roundInput P payload.val = some inp ∧
      inp.orders = probe (pub ++ hidden) qtys ∧ inp.publicOrders.map Order.label = pub ∧
      inp.sealedOrders.map Order.label = hidden := by
  have hsize : (probeRound P pub hidden qtys).length ≤ maxInput := by
    rw [length_probeRound]
    exact hfit
  obtain ⟨inp, hinput, hpublic, hsealed⟩ := roundInput_probeRound P hfit
  refine ⟨⟨_, hsize⟩, inp, hinput, ?_, ?_, ?_⟩
  · rw [RoundInput.orders, hpublic, hsealed, List.take_append_drop]
  · rw [hpublic, List.map_take, map_label_probe, List.take_left]
  · rw [hsealed, List.map_drop, map_label_probe, List.drop_left]

/-! ### A round on two resting orders -/

/-- A buy of account 1 and a sell of account 2 that cross. -/
def crossedBook : List Order := [⟨1, 7, .buy, 5, 10⟩, ⟨2, 8, .sell, 5, 10⟩]

/-- A round without new orders on that book. -/
def crossedPayload : WorkPayload :=
  ⟨smatchPayload 0 1 2 (publicSectionBytes [] [] (encodeOrders crossedBook)), by decide +kernel⟩

/-- What refine reads from it. -/
def crossedRound : RoundInput :=
  ⟨.smatch, 0, 1, 2, ⟨crossedBook, [], Primitives.toy.blake2s (encodeOrders crossedBook)⟩⟩

theorem roundInput_crossedPayload :
    roundInput Primitives.toy crossedPayload.val = some crossedRound := by
  decide +kernel

end Jamswap.Service
