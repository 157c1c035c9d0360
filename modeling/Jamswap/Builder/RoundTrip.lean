import Jamswap.Builder.Drafts
import Jamswap.Committee.Sidecar

/-!
# Refine reads a draft back

What refine makes of a drafted payload is `Host.draftInput`: the book without the pruned entries,
the public orders with their bindings and the sealed orders with the entries they consume. Refine
may drop the round for a bad signature, but if it takes it, this is what it takes
(`Draft.input_eq`), and with valid signatures it takes it (`Draft.input_of_signed`). Sealed orders
are read back because their hiding material was made from their own terms (`Order.Hidden`); for
encrypted orders that needs the sidecar to be the one modelled and its decryption to return what it
encrypted.
-/

namespace Jamswap.Builder

open Library Engine Service Committee

/-! ### Well-made orders -/

/-- The order's hiding material was made by `_seal_material` from its own terms. -/
def Order.Hidden (H : Host) (o : Order) : Prop :=
  ∃ terms, ∃ token : Bytes32, orderBytes o = some terms ∧
    if H.encMode then ∃ n, H.committeeEncrypt n terms token.val = some o.ciphertext
    else o.reveal = terms ++ token.val

/-- The order is validly signed for the market: over its signed price, which a limit order has for
its price. -/
structure Order.Signed (H : Host) (o : Order) : Prop where
  length : o.sig.length = 64
  price : o.otype = .limit → o.price = o.signedPrice
  valid : verifySigned H.prims o.pubkey
    (orderMsg o.account H.market o.side.byte (UInt32.ofNat o.qty) (decide (o.otype = .market)) false
      (UInt32.ofNat o.signedPrice) o.seq) (FixedBytes.ofBytes 64 o.sig) = true

/-- The sidecar process the builder calls is the one modelled. -/
structure RunsSidecar (H : Host) (S : ScalarOps H.prims.curve) : Prop where
  encrypt : ∀ n terms seed ct, H.committeeEncrypt n terms seed = some ct →
    ct = cmdEncrypt H.prims terms seed
  round : ∀ n sec cts payload, H.committeeRound n sec cts = some payload →
    cmdRound H.prims S H.market H.base H.quote sec cts = some payload

/-! ### The round refine reads -/

/-- A sealed order as refine opens it. -/
def Host.opened (H : Host) (o : Order) : Opened := ⟨o.wire, H.consumedEntry o⟩

def Host.roundKind (H : Host) (orders : List Order) : RoundKind :=
  if orders = [] then .smatch
  else if H.encMode then .encRound (fixedBlob H.prims) (orders.map H.opened)
  else .reveal (orders.map H.opened)

/-- The round of a record on the book `raw`. -/
def Host.draftInput (H : Host) (rec : Round) (raw : Bytes) : RoundInput where
  kind := H.roundKind rec.sealedOrders
  market := H.market
  base := H.base
  quote := H.quote
  ps := builtSection H.prims (rec.pruned.map wirePair) raw
    (rec.publicOrders.map fun o ↦ (o.wire, o.binding))

theorem opened_roundKind (H : Host) (orders : List Order) :
    (H.roundKind orders).opened = orders.map H.opened := by
  unfold Host.roundKind
  split_ifs with hnone henc
  · rw [hnone]
    rfl
  · rfl
  · rfl

section Hidden

variable {H : Host} {S : ScalarOps H.prims.curve} {o : Order}

/-- A reveal opens to the order it hides. -/
theorem openReveal_of_hidden (hmode : H.encMode = false) (h : o.Hidden H) :
    o.reveal.length = revealLen ∧ openReveal H.prims o.reveal = H.opened o := by
  obtain ⟨terms, token, hterms, hhidden⟩ := h
  obtain ⟨-, rfl⟩ := orderBytes_spec hterms
  simp only [hmode, Bool.false_eq_true, if_false] at hhidden
  have hlen : (encodeOrder o.wire).length = orderLen := length_encodeOrder _
  have hslice : slice o.reveal 0 orderLen = encodeOrder o.wire := by
    rw [hhidden, slice, List.drop_zero, Nat.sub_zero, ← hlen, List.take_left]
  constructor
  · rw [hhidden, List.length_append, hlen, FixedBytes.length_val]
    rfl
  · have hdecoded : decodeOrder (encodeOrder o.wire) = o.wire := decodeOrder_encodeOrder _
    simp only [openReveal, hslice, hdecoded, Host.opened, Host.consumedEntry, hmode,
      Bool.false_eq_true, if_false]
    rfl

/-- A ciphertext is the sidecar's, of the order it hides. -/
theorem sealing_of_hidden (hmode : H.encMode = true) (hsidecar : RunsSidecar H S)
    (h : o.Hidden H) : ∃ seed, o.ciphertext = Sealing.ciphertext H.prims (o.wire, seed) := by
  obtain ⟨terms, token, hterms, hhidden⟩ := h
  obtain ⟨-, rfl⟩ := orderBytes_spec hterms
  rw [if_pos hmode] at hhidden
  obtain ⟨n, hct⟩ := hhidden
  exact ⟨token.val, hsidecar.encrypt n _ _ _ hct⟩

/-- The sealings behind the ciphertexts of a list of orders. -/
theorem sealings_of_hidden (hmode : H.encMode = true) (hsidecar : RunsSidecar H S)
    {orders : List Order} (h : ∀ o ∈ orders, o.Hidden H) :
    ∃ seals : List Sealing, seals.length = orders.length ∧
      orders.map Order.ciphertext = seals.map (Sealing.ciphertext H.prims) ∧
      orders.map H.opened = seals.map (Sealing.opened H.prims) := by
  induction orders with
  | nil => exact ⟨[], rfl, rfl, rfl⟩
  | cons o orders ih =>
    obtain ⟨seals, hcount, hcts, hopened⟩ := ih fun x hx ↦ h x (List.mem_cons_of_mem o hx)
    obtain ⟨seed, hseed⟩ := sealing_of_hidden hmode hsidecar (h o List.mem_cons_self)
    refine ⟨(o.wire, seed) :: seals, congrArg (· + 1) hcount, ?_, ?_⟩
    · rw [List.map_cons, List.map_cons, hseed, hcts]
    · have hopen : H.opened o = Sealing.opened H.prims (o.wire, seed) := by
        simp only [Host.opened, Host.consumedEntry, if_pos hmode, hseed]
        rfl
      rw [List.map_cons, List.map_cons, hopen, hopened]

end Hidden

/-! ### Reading back -/

/-- What refine keeps of a signed order. -/
theorem admitSigned_spec {P : Primitives} {market : UInt32} {o : Order}
    {admitted : Engine.Order × Binding}
    (h : admitSigned P market o.signedWire = some admitted) : admitted = (o.wire, o.binding) := by
  simp only [admitSigned] at h
  split_ifs at h
  exact (Option.some.inj h).symm

theorem admitSigned_of_signed {H : Host} {o : Order} (h : o.Signed H) :
    admitSigned H.prims H.market o.signedWire = some (o.wire, o.binding) := by
  have hprice : (!hasFlag o.flags flagMarket && o.wire.price != UInt32.ofNat o.signedPrice) =
      false := by
    rw [hasFlag_flags]
    cases htype : o.otype with
    | market => rfl
    | limit => simp [Order.wire, h.price htype]
  have hvalid := h.valid
  rw [← hasFlag_flags] at hvalid
  unfold admitSigned
  simp only [Order.signedWire, notSealed_flags, Bool.false_eq_true, if_false, hprice]
  exact if_pos hvalid

section Draft

variable {H : Host} {S : ScalarOps H.prims.curve} {Read : Key → Bytes → Prop} {pool : List Order}
  {raw payload : Bytes} {rec : Round}

/-- What a draft needs to be read back as it was meant. -/
structure WellMade (H : Host) (S : ScalarOps H.prims.curve) (rec : Round) : Prop where
  sigs : ∀ o ∈ rec.publicOrders, o.sig.length = 64
  hidden : ∀ o ∈ rec.sealedOrders, o.Hidden H
  sidecar : H.encMode = true → RunsSidecar H S ∧ Decrypts H.prims S

section

variable (d : Draft H Read pool raw rec payload)

include d

/-- A draft is a round. -/
theorem Draft.tagged (hsidecar : H.encMode = true → RunsSidecar H S) :
    ∃ tag, tagOf payload = some tag ∧ tag.isRound = true := by
  obtain ⟨sec, -, hpayload⟩ := d.bytes
  generalize rec.sealedOrders = orders at hpayload
  cases hpayload with
  | smatch => exact ⟨.smatch, tagOf_matchHeader _ _ _ _ _, rfl⟩
  | reveal _ _ _ _ =>
    refine ⟨.reveal, ?_, rfl⟩
    simp only [revealPayload, List.append_assoc]
    exact tagOf_matchHeader _ _ _ _ _
  | encrypted _ _ _ hmode n hround =>
    exact ⟨.encRound, tagOf_cmdRound ((hsidecar hmode).round n _ _ _ hround), rfl⟩

/-- The platform's bound on a payload bounds the orders of an encrypted round. -/
theorem Draft.sealed_lt (hmade : WellMade H S rec) (hmode : H.encMode = true)
    (hsize : payload.length ≤ maxInput) : rec.sealedOrders.length < 2 ^ 16 := by
  obtain ⟨sec, hsec, hpayload⟩ := d.bytes
  have hbytes := (publicSectionBytes_spec hmade.sigs hsec).bytes
  obtain ⟨hsidecar, hdecrypts⟩ := hmade.sidecar hmode
  obtain ⟨seals, hcount, hcts, -⟩ := sealings_of_hidden hmode hsidecar hmade.hidden
  generalize rec.sealedOrders = orders at hpayload hcount hcts
  cases hpayload with
  | smatch => exact Nat.two_pow_pos 16
  | reveal _ _ hplain _ =>
    rw [hmode] at hplain
    cases hplain
  | encrypted _ _ _ _ n hround =>
    rw [hcts] at hround
    have hlen := length_cmdRound hdecrypts (hbytes ▸ publicSectionBytes_ne_nil _ _ _)
      (hsidecar.round n _ _ _ hround)
    rw [hcount] at hlen
    simp only [pointLen, orderLen, Committee.committeeSize, partialLen, scalarLen, maxInput]
      at hlen hsize
    omega

/-- Refine reads the payload as the drafted round, unless it finds a signature wanting. -/
theorem Draft.roundInput_eq (hmade : WellMade H S rec)
    (hcount : H.encMode = true → rec.sealedOrders.length < 2 ^ 16) :
    roundInput H.prims payload =
      ((rec.publicOrders.map Order.signedWire).mapM (admitSigned H.prims H.market)).map
        fun admitted ↦ ⟨H.roundKind rec.sealedOrders, H.market, H.base, H.quote,
          builtSection H.prims (rec.pruned.map wirePair) raw admitted⟩ := by
  obtain ⟨sec, hsec, hpayload⟩ := d.bytes
  obtain ⟨horders, hprunes, -, -, rfl⟩ := publicSectionBytes_spec hmade.sigs hsec
  have hsigned : (rec.publicOrders.map Order.signedWire).length < 2 ^ 16 := by
    rwa [List.length_map]
  have hpruned : (rec.pruned.map wirePair).length < 2 ^ 16 := by rwa [List.length_map]
  have hhidden := hmade.hidden
  generalize rec.sealedOrders = orders at hpayload hhidden hcount
  cases hpayload with
  | smatch => exact roundInput_smatchPayload hsigned hpruned
  | reveal _ hsome hmode hlength =>
    have hopened : (orders.map Order.reveal).map (openReveal H.prims) = orders.map H.opened := by
      rw [List.map_map]
      exact List.map_congr_left fun o ho ↦ (openReveal_of_hidden hmode (hhidden o ho)).2
    have hlens : ∀ r ∈ orders.map Order.reveal, r.length = revealLen := by
      intro r hr
      obtain ⟨o, ho, rfl⟩ := List.mem_map.mp hr
      exact (openReveal_of_hidden hmode (hhidden o ho)).1
    have htotal : (orders.map Order.reveal).length * 49 < 2 ^ 32 := by
      rw [List.flatMap_def, List.length_flatten, List.map_congr_left hlens, List.map_const',
        List.sum_replicate, smul_eq_mul] at hlength
      exact hlength
    rw [roundInput_reveals hlens htotal hsigned hpruned, hopened, Host.roundKind,
      if_neg hsome, hmode]
    rfl
  | encrypted _ _ hsome hmode n hround =>
    obtain ⟨hsidecar, hdecrypts⟩ := hmade.sidecar hmode
    obtain ⟨seals, hseals, hcts, hopened⟩ := sealings_of_hidden hmode hsidecar hhidden
    rw [hcts] at hround
    rw [roundInput_cmdRound hdecrypts (by rw [hseals]; exact hcount hmode) hsigned hpruned
      (hsidecar.round n _ _ _ hround), Host.roundKind, if_neg hsome, if_pos hmode, hopened]

/-- If refine takes the round, it takes the drafted one. -/
theorem Draft.input_eq (hmade : WellMade H S rec)
    (hcount : H.encMode = true → rec.sealedOrders.length < 2 ^ 16) {inp : RoundInput}
    (hinput : roundInput H.prims payload = some inp) : inp = H.draftInput rec raw := by
  rw [d.roundInput_eq hmade hcount, Option.map_eq_some_iff] at hinput
  obtain ⟨admitted, hadmitted, rfl⟩ := hinput
  rw [List.mapM_map] at hadmitted
  have hspec := map_of_mapM (p := fun _ ↦ True) (fun o _ y hy ↦ ⟨trivial, admitSigned_spec hy⟩)
    hadmitted
  rw [hspec.2]
  rfl

/-- With valid signatures refine takes the round. -/
theorem Draft.input_of_signed (hmade : WellMade H S rec)
    (hcount : H.encMode = true → rec.sealedOrders.length < 2 ^ 16)
    (hsigned : ∀ o ∈ rec.publicOrders, o.Signed H) :
    roundInput H.prims payload = some (H.draftInput rec raw) := by
  have hadmitted : (rec.publicOrders.map Order.signedWire).mapM (admitSigned H.prims H.market) =
      some (rec.publicOrders.map fun o ↦ (o.wire, o.binding)) := by
    rw [List.mapM_map]
    exact mapM_eq_pure fun o ho ↦ admitSigned_of_signed (hsigned o ho)
  rw [d.roundInput_eq hmade hcount, hadmitted]
  rfl

/-- A draft of well-made orders is well made. -/
theorem Draft.wellMade (hsigs : ∀ o ∈ pool, o.sealed = false → o.sig.length = 64)
    (hhidden : ∀ o ∈ pool, o.sealed = true → o.Hidden H)
    (hsidecar : H.encMode = true → RunsSidecar H S ∧ Decrypts H.prims S) : WellMade H S rec := by
  refine ⟨fun o ho ↦ ?_, fun o ho ↦ ?_, hsidecar⟩
  · obtain ⟨o', ho', hopen, hpriced⟩ := d.priced o ho
    have hsig := hsigs o' ho' hopen
    cases hpriced with
    | limit _ => exact hsig
    | market _ _ _ _ => exact hsig
  · exact hhidden o (d.sealed_pool.subset ho) (d.isSealed o ho)

/-- Orders of the pool stay signed as the round carries them. -/
theorem Draft.signed (hpool : ∀ o ∈ pool, o.sealed = false → o.Signed H) :
    ∀ o ∈ rec.publicOrders, o.Signed H := by
  intro o ho
  obtain ⟨o', ho', hopen, hpriced⟩ := d.priced o ho
  have hsigned := hpool o' ho' hopen
  cases hpriced with
  | limit _ => exact hsigned
  | market hmarket _ _ _ =>
    refine ⟨hsigned.length, fun hlimit ↦ ?_, hsigned.valid⟩
    rw [hmarket] at hlimit
    cases hlimit

end

end Draft

end Jamswap.Builder
