import Jamswap.Builder.Orders
import Jamswap.Service.Payload

/-!
# The builder's bytes are the service's

The builder packs orders, signed orders and the public section on its own. When packing does not
raise, the bytes are those of the service's formats, for the order with its integers as words
(`Order.wire`, `Order.signedWire`): `orderBytes_spec`, `signedOrderBytes_spec`,
`publicSectionBytes_spec`. What fits is not changed by that (`Order.Fits.terms_wire`).
-/

namespace Jamswap.Builder

open Library Engine Service

/-! ### Orders -/

/-- What an order offers: the fields both sides clear by. -/
structure Terms where
  account : UInt32
  oid : ℕ
  side : Side
  price : ℕ
  qty : ℕ
  deriving DecidableEq

def Order.terms (o : Order) : Terms := ⟨o.account, o.oid, o.side, o.price, o.qty⟩

/-- The order as the service holds it. -/
def Order.wire (o : Order) : Engine.Order where
  account := o.account
  id := UInt32.ofNat o.oid
  side := o.side
  price := UInt32.ofNat o.price
  qty := UInt32.ofNat o.qty

/-- The order's integers can be packed. -/
structure Order.Fits (o : Order) : Prop where
  oid : o.oid < 2 ^ 32
  price : o.price < 2 ^ 32
  qty : o.qty < 2 ^ 32

variable {o : Order} {n : ℕ} {b : Bytes}

theorem pack32_spec (h : pack32 n = some b) : n < 2 ^ 32 ∧ b = u32Bytes (UInt32.ofNat n) := by
  unfold pack32 at h
  split_ifs at h with hn
  exact ⟨hn, (Option.some.inj h).symm⟩

theorem pack16_spec (h : pack16 n = some b) : n < 2 ^ 16 ∧ b = u16Bytes (UInt16.ofNat n) := by
  unfold pack16 at h
  split_ifs at h with hn
  exact ⟨hn, (Option.some.inj h).symm⟩

theorem orderBytes_spec (h : orderBytes o = some b) : o.Fits ∧ b = encodeOrder o.wire := by
  unfold orderBytes at h
  obtain ⟨oid, hoid, h⟩ := Option.bind_eq_some_iff.mp h
  obtain ⟨price, hprice, h⟩ := Option.bind_eq_some_iff.mp h
  obtain ⟨qty, hqty, h⟩ := Option.bind_eq_some_iff.mp h
  obtain ⟨hoidFits, rfl⟩ := pack32_spec hoid
  obtain ⟨hpriceFits, rfl⟩ := pack32_spec hprice
  obtain ⟨hqtyFits, rfl⟩ := pack32_spec hqty
  exact ⟨⟨hoidFits, hpriceFits, hqtyFits⟩, (Option.some.inj h).symm⟩

theorem Order.Fits.terms_wire (h : o.Fits) : (restingOrder o.wire).terms = o.terms := by
  simp only [restingOrder, Order.wire, Order.terms, UInt32.toNat_ofNat', Nat.mod_eq_of_lt h.oid,
    Nat.mod_eq_of_lt h.price, Nat.mod_eq_of_lt h.qty]

/-! ### Signed orders -/

/-- `FLAG_MARKET` or none. -/
def Order.flags (o : Order) : UInt8 := if o.otype = .market then flagMarket else 0

def Order.signedWire (o : Order) : SignedOrder where
  order := o.wire
  flags := o.flags
  signedPrice := UInt32.ofNat o.signedPrice
  seq := o.seq
  pubkey := o.pubkey
  sig := FixedBytes.ofBytes 64 o.sig

/-- What refine hands to accumulate about the order. -/
def Order.binding (o : Order) : Binding :=
  ⟨o.account, o.seq, o.pubkey, o.flags, UInt32.ofNat o.price⟩

theorem hasFlag_flags (o : Order) : hasFlag o.flags flagMarket = decide (o.otype = .market) := by
  unfold Order.flags
  cases o.otype <;> rfl

theorem notSealed_flags (o : Order) : hasFlag o.flags flagSealed = false := by
  unfold Order.flags
  cases o.otype <;> rfl

theorem signedOrderBytes_spec (hsig : o.sig.length = 64) (h : signedOrderBytes o = some b) :
    (o.Fits ∧ o.signedPrice < 2 ^ 32) ∧ b = encodeSignedOrder o.signedWire := by
  unfold signedOrderBytes at h
  obtain ⟨order, horder, h⟩ := Option.bind_eq_some_iff.mp h
  obtain ⟨signed, hsigned, h⟩ := Option.bind_eq_some_iff.mp h
  obtain ⟨hfits, rfl⟩ := orderBytes_spec horder
  obtain ⟨hsignedFits, rfl⟩ := pack32_spec hsigned
  refine ⟨⟨hfits, hsignedFits⟩, (Option.some.inj h).symm.trans ?_⟩
  simp only [encodeSignedOrder, Order.signedWire, Order.flags, FixedBytes.val_ofBytes hsig,
    List.append_assoc]

/-! ### The public section -/

/-- A pruned pair as the service holds it. -/
def wirePair (p : Pair) : UInt32 × UInt32 := (p.1, UInt32.ofNat p.2)

/-- The bytes of the builder's public section. -/
structure PublicBytes (publicOrders : List Order) (pruned : List Pair)
    (raw sec : Bytes) : Prop where
  orders : publicOrders.length < 2 ^ 16
  prunes : pruned.length < 2 ^ 16
  fit : ∀ o ∈ publicOrders, o.Fits ∧ o.signedPrice < 2 ^ 32
  pairs : ∀ p ∈ pruned, p.2 < 2 ^ 32
  bytes : sec = Service.publicSectionBytes (publicOrders.map Order.signedWire)
    (pruned.map wirePair) raw

theorem publicSectionBytes_spec {publicOrders : List Order} {pruned : List Pair} {raw sec : Bytes}
    (hsig : ∀ o ∈ publicOrders, o.sig.length = 64)
    (h : publicSectionBytes publicOrders pruned raw = some sec) :
    PublicBytes publicOrders pruned raw sec := by
  unfold publicSectionBytes at h
  obtain ⟨count, hcount, h⟩ := Option.bind_eq_some_iff.mp h
  obtain ⟨orders, horders, h⟩ := Option.bind_eq_some_iff.mp h
  obtain ⟨prunes, hprunes, h⟩ := Option.bind_eq_some_iff.mp h
  obtain ⟨pairs, hpairs, h⟩ := Option.bind_eq_some_iff.mp h
  obtain ⟨hcountFits, rfl⟩ := pack16_spec hcount
  obtain ⟨hprunesFit, rfl⟩ := pack16_spec hprunes
  obtain ⟨hfit, rfl⟩ := map_of_mapM (fun o ho b hb ↦ signedOrderBytes_spec (hsig o ho) hb) horders
  have hpair : ∀ p ∈ pruned, ∀ y : Bytes,
      (do let oid ← pack32 p.2; pure (u32Bytes p.1 ++ oid)) = some y →
        p.2 < 2 ^ 32 ∧ y = u32Bytes p.1 ++ u32Bytes (UInt32.ofNat p.2) := by
    intro p _ y hy
    obtain ⟨oid, hoid, hy⟩ := Option.bind_eq_some_iff.mp hy
    obtain ⟨hlt, rfl⟩ := pack32_spec hoid
    exact ⟨hlt, (Option.some.inj hy).symm⟩
  obtain ⟨hlt, rfl⟩ := map_of_mapM hpair hpairs
  refine ⟨hcountFits, hprunesFit, hfit, hlt, (Option.some.inj h).symm.trans ?_⟩
  simp only [Service.publicSectionBytes, encodeSignedOrders, List.length_map, List.flatMap_map,
    ← List.flatMap_def, List.append_assoc]
  rfl

/-! ### The resting book -/

/-- Both sides prune the same entries of the book. -/
theorem terms_resting {pruned : List Pair} {raw : Bytes} (h : ∀ p ∈ pruned, p.2 < 2 ^ 32) :
    (((decodeOrders raw).filter fun o ↦ !(pruned.map wirePair).contains (o.account, o.id)).map
        restingOrder) = (parseBook raw).filter fun o ↦ o.pair ∉ pruned := by
  rw [parseBook, List.filter_map]
  refine congrArg (List.map restingOrder) (List.filter_congr fun o _ ↦ ?_)
  have hiff : (o.account, o.id) ∈ pruned.map wirePair ↔ (restingOrder o).pair ∈ pruned := by
    constructor
    · intro hmem
      obtain ⟨p, hp, heq⟩ := List.mem_map.mp hmem
      obtain ⟨haccount, hid⟩ := Prod.mk.inj heq
      have hvalue : (restingOrder o).pair = p := by
        refine Prod.ext haccount.symm ?_
        show o.id.toNat = p.2
        rw [← hid, UInt32.toNat_ofNat', Nat.mod_eq_of_lt (h p hp)]
      rwa [hvalue]
    · intro hmem
      refine List.mem_map.mpr ⟨_, hmem, ?_⟩
      exact Prod.ext rfl UInt32.ofNat_toNat
  rw [Function.comp_apply, decide_not, Bool.not_inj_iff, Bool.eq_iff_iff, decide_eq_true_iff]
  exact List.contains_iff_mem.trans hiff

end Jamswap.Builder
