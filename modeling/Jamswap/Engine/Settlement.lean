import Jamswap.Engine.Wire
import Jamswap.Library.Tally

/-!
# Settlement entries and balance deltas

`encodeSettlement` resolves every fill, by its order id, to the first order of the batch with that
id, and writes that order's account and side; `settleDeltas` turns the entries into net changes per
account at the uniform price, the treasury taking the fees and the rounding residual. The codec
round trip is `decodeSettlement_encodeSettlement`. The deltas have distinct accounts
(`nodup_settleDeltas`); their quote parts add up to zero and their base parts to bought minus sold
(`sum_settleDeltas`).
-/

namespace Jamswap.Engine

open Library

/-- One fill resolved to its trader and side. -/
@[ext]
structure SettleEntry where
  account : UInt32
  side : Side
  qty : UInt32
  deriving DecidableEq, Repr

/-! ### The settlement section -/

/-- account(4) ‖ side(1) ‖ qty(4). -/
def settleEntryLen : ℕ := 9

def encodeSettleEntry (e : SettleEntry) : Bytes :=
  u32Bytes e.account ++ [e.side.byte] ++ u32Bytes e.qty

def decodeSettleEntry (b : Bytes) : SettleEntry where
  account := u32At b 0
  side := Side.ofByte (byteAt b 4)
  qty := u32At b 5

/-- The trader and side a fill is charged to: those of the first order with its id. -/
def resolveFill (orders : List Order) (f : Fill) : Option SettleEntry :=
  (orders.find? fun o ↦ o.id == f.id).map fun o ↦ ⟨o.account, o.side, f.qty⟩

def settleEntries (orders : List Order) (fills : List Fill) : List SettleEntry :=
  fills.filterMap (resolveFill orders)

/-- price ‖ n ‖ n × (account ‖ side ‖ qty). -/
def encodeSettlement (price : UInt32) (orders : List Order) (c : Clearing) : Bytes :=
  u32Bytes price ++ u32Bytes (UInt32.ofNat c.fills.length) ++
    (settleEntries orders c.fills).flatMap encodeSettleEntry

def decodeSettlement (data : Bytes) : Option (UInt32 × List SettleEntry) :=
  if data.length < 8 then none
  else
    let price := u32At data 0
    let n := (u32At data 4).toNat
    if data.length < 8 + n * settleEntryLen then none
    else
      some (price,
        (records settleEntryLen (slice data 8 (8 + n * settleEntryLen))).map decodeSettleEntry)

@[simp] theorem length_encodeSettleEntry (e : SettleEntry) :
    (encodeSettleEntry e).length = settleEntryLen := by
  simp [encodeSettleEntry, settleEntryLen]

@[simp] theorem decodeSettleEntry_encodeSettleEntry (e : SettleEntry) :
    decodeSettleEntry (encodeSettleEntry e) = e := by
  have haccount : Cursor (encodeSettleEntry e) 0 (u32Bytes e.account)
      ([e.side.byte] ++ (u32Bytes e.qty ++ [])) := by
    simpa [encodeSettleEntry] using Cursor.start (u32Bytes e.account) _
  have hside := haccount.next (j := 4) (by simp)
  have hqty := hside.next (j := 5) (by simp)
  ext1
  · exact haccount.u32At_eq
  · exact (congrArg Side.ofByte hside.byteAt_eq).trans (Side.ofByte_byte e.side)
  · exact hqty.u32At_eq

variable {orders : List Order}

/-- Every fill whose id occurs in the batch resolves to one entry, in order. -/
theorem forall₂_settleEntries {fills : List Fill} (h : ∀ f ∈ fills, ∃ o ∈ orders, o.id = f.id) :
    List.Forall₂ (fun f e ↦ resolveFill orders f = some e) fills (settleEntries orders fills) := by
  induction fills with
  | nil => exact List.Forall₂.nil
  | cons f fills ih =>
    obtain ⟨o, ho, hid⟩ := h f List.mem_cons_self
    have hfound : (orders.find? fun o ↦ o.id == f.id).isSome := by
      rw [List.find?_isSome]
      exact ⟨o, ho, by simpa using hid⟩
    obtain ⟨first, hfirst⟩ := Option.isSome_iff_exists.mp hfound
    have hresolve : resolveFill orders f = some ⟨first.account, first.side, f.qty⟩ := by
      rw [resolveFill, hfirst]
      rfl
    rw [settleEntries, List.filterMap_cons_some hresolve]
    constructor
    · exact hresolve
    · exact ih fun f' hf' ↦ h f' (List.mem_cons_of_mem f hf')

/-- No entry is lost. -/
theorem length_settleEntries {fills : List Fill} (h : ∀ f ∈ fills, ∃ o ∈ orders, o.id = f.id) :
    (settleEntries orders fills).length = fills.length :=
  (forall₂_settleEntries h).length_eq.symm

/-- The settlement section is read back as it was written. -/
theorem decodeSettlement_encodeSettlement {price : UInt32} {c : Clearing}
    (hresolves : ∀ f ∈ c.fills, ∃ o ∈ orders, o.id = f.id) (hcount : c.fills.length < 2 ^ 32) :
    decodeSettlement (encodeSettlement price orders c) =
      some (price, settleEntries orders c.fills) := by
  have hprice : Cursor (encodeSettlement price orders c) 0 (u32Bytes price)
      (u32Bytes (UInt32.ofNat c.fills.length) ++
        ((settleEntries orders c.fills).flatMap encodeSettleEntry ++ [])) := by
    simpa [encodeSettlement] using Cursor.start (u32Bytes price) _
  have hn := hprice.next (j := 4) (by simp)
  have hentries := hn.next (j := 8) (by simp)
  have hentriesLen : ((settleEntries orders c.fills).flatMap encodeSettleEntry).length =
      c.fills.length * settleEntryLen := by
    rw [length_flatMap_of_width encodeSettleEntry length_encodeSettleEntry,
      length_settleEntries hresolves]
  have hnValue : (u32At (encodeSettlement price orders c) 4).toNat = c.fills.length := by
    rw [hn.u32At_eq, UInt32.toNat_ofNat', Nat.mod_eq_of_lt hcount]
  have hlen := hentries.length_eq
  rw [List.length_nil, hentriesLen] at hlen
  unfold decodeSettlement
  rw [if_neg (by omega)]
  simp only [hnValue]
  rw [if_neg (by omega), hprice.u32At_eq, hentries.slice_eq (by rw [hentriesLen]),
    records_flatMap (by decide) encodeSettleEntry length_encodeSettleEntry, List.map_map]
  have hid : (settleEntries orders c.fills).map (decodeSettleEntry ∘ encodeSettleEntry) =
      settleEntries orders c.fills :=
    (List.map_congr_left fun e _ ↦ decodeSettleEntry_encodeSettleEntry e).trans (List.map_id _)
  rw [hid]

/-- The fills of a clearing resolve in the batch that was cleared. -/
theorem clear_fills_resolve (P : Primitives) (orders : List Order) :
    ∀ f ∈ (clear P orders).fills, ∃ o ∈ orders, o.id = f.id := by
  intro f hf
  rw [clear_fills] at hf
  obtain ⟨a, ha, rfl⟩ := List.mem_map.mp hf
  exact ⟨a.1.order, List.mem_of_getElem? (mem_refs_iff.mp (allocation_spec ha).1), rfl⟩

theorem length_encodeSettlement_le (price : UInt32) (orders : List Order) (c : Clearing) :
    (encodeSettlement price orders c).length ≤ 8 + c.fills.length * settleEntryLen := by
  have hle : (settleEntries orders c.fills).length ≤ c.fills.length := List.length_filterMap_le _ _
  have hbytes := Nat.mul_le_mul_right settleEntryLen hle
  simp only [encodeSettlement, List.length_append, length_u32Bytes,
    length_flatMap_of_width encodeSettleEntry length_encodeSettleEntry]
  omega

theorem length_clear_fills_le (P : Primitives) (orders : List Order) :
    (clear P orders).fills.length ≤ orders.length := by
  have hsub : ((allocation P orders).map Prod.fst).Subperm (refs orders) :=
    (nodup_allocation P orders).subperm fun r hr ↦ by
      obtain ⟨a, ha, rfl⟩ := List.mem_map.mp hr
      exact (allocation_spec ha).1
  have hle := hsub.length_le
  rw [List.length_map] at hle
  rw [clear_fills, List.length_map]
  calc (allocation P orders).length ≤ (refs orders).length := hle
    _ = orders.length := by rw [refs, List.length_map, List.length_zipIdx]

/-! ### Balance deltas -/

/-- The quote value of an entry: buyers round up, sellers down. The source's `i128` holds any sum
of products of two 32-bit words that a payload can carry, so integers model it. -/
def SettleEntry.notional (e : SettleEntry) (price scale : UInt32) : ℤ :=
  let gross : ℤ := e.qty.toNat * price.toNat
  let s : ℤ := max scale.toNat 1
  match e.side with
  | .buy => (gross + s - 1) / s
  | .sell => gross / s

/-- The per-entry step of `settleDeltas`: the trader's change, then the treasury's fee. -/
def settleStep (price : UInt32) (feeFlat : UInt64) (treasury scale : UInt32)
    (out : List (UInt32 × ℤ × ℤ)) (e : SettleEntry) : List (UInt32 × ℤ × ℤ) :=
  let q : ℤ := e.qty.toNat
  let notional := e.notional price scale
  let fee : ℤ := min feeFlat.toNat q
  let change : ℤ × ℤ := match e.side with
    | .buy => (q - fee, -notional)
    | .sell => (-(q + fee), notional)
  let out := tally out e.account change
  if 0 < fee then tally out treasury (fee, 0) else out

/-- Net (base, quote) change per account, at the uniform price. -/
def settleDeltas (price : UInt32) (entries : List SettleEntry) (feeFlat : UInt64)
    (treasury scale : UInt32) : List (UInt32 × ℤ × ℤ) :=
  let out := entries.foldl (settleStep price feeFlat treasury scale) []
  let resid := (out.map fun d ↦ d.2.2).sum
  if resid ≠ 0 then tally out treasury (0, -resid) else out

/-- The base an entry moves into its account. -/
def SettleEntry.baseChange (e : SettleEntry) : ℤ :=
  match e.side with
  | .buy => e.qty.toNat
  | .sell => -e.qty.toNat

/-- The quote an entry moves into its account. -/
def SettleEntry.quoteChange (e : SettleEntry) (price scale : UInt32) : ℤ :=
  match e.side with
  | .buy => -e.notional price scale
  | .sell => e.notional price scale

section Deltas

variable (price : UInt32) (feeFlat : UInt64) (treasury scale : UInt32)

theorem nodup_settleStep {out : List (UInt32 × ℤ × ℤ)} (h : (out.map Prod.fst).Nodup)
    (e : SettleEntry) :
    ((settleStep price feeFlat treasury scale out e).map Prod.fst).Nodup := by
  simp only [settleStep]
  split_ifs
  · exact nodup_tally (nodup_tally h _ _) _ _
  · exact nodup_tally h _ _

theorem nodup_settleDeltas (entries : List SettleEntry) :
    ((settleDeltas price entries feeFlat treasury scale).map Prod.fst).Nodup := by
  have hfold : ((entries.foldl (settleStep price feeFlat treasury scale) []).map Prod.fst).Nodup :=
    List.foldlRecOn (motive := fun out : List (UInt32 × ℤ × ℤ) ↦ (out.map Prod.fst).Nodup) _ _
      List.nodup_nil fun _ h e _ ↦ nodup_settleStep price feeFlat treasury scale h e
  simp only [settleDeltas]
  split_ifs
  · exact nodup_tally hfold _ _
  · exact hfold

/-- One entry moves its own base and quote changes, whatever the fee: the treasury gets what the
trader pays. -/
theorem sum_settleStep (out : List (UInt32 × ℤ × ℤ)) (e : SettleEntry) :
    ((settleStep price feeFlat treasury scale out e).map Prod.snd).sum =
      (out.map Prod.snd).sum + (e.baseChange, e.quoteChange price scale) := by
  simp only [settleStep]
  split_ifs with hfee
  · rw [sum_snd_tally, sum_snd_tally, add_assoc]
    congr 1
    cases hside : e.side with
    | buy => simp [SettleEntry.baseChange, SettleEntry.quoteChange, hside]
    | sell =>
      simp only [SettleEntry.baseChange, SettleEntry.quoteChange, hside, Prod.mk_add_mk, add_zero,
        Prod.mk.injEq, and_true]
      ring
  · have hzero : min (feeFlat.toNat : ℤ) (e.qty.toNat : ℤ) = 0 := by omega
    rw [sum_snd_tally, hzero]
    cases hside : e.side with
    | buy | sell => simp [SettleEntry.baseChange, SettleEntry.quoteChange, hside]

theorem sum_foldl_settleStep (entries : List SettleEntry) (out : List (UInt32 × ℤ × ℤ)) :
    ((entries.foldl (settleStep price feeFlat treasury scale) out).map Prod.snd).sum =
      (out.map Prod.snd).sum +
        (entries.map fun e ↦ (e.baseChange, e.quoteChange price scale)).sum := by
  induction entries generalizing out with
  | nil => simp
  | cons e entries ih =>
    rw [List.foldl_cons, ih, sum_settleStep, List.map_cons, List.sum_cons, add_assoc]

/-- The quote parts cancel exactly, and the base parts leave bought minus sold. -/
theorem sum_settleDeltas (entries : List SettleEntry) :
    ((settleDeltas price entries feeFlat treasury scale).map Prod.snd).sum =
      ((entries.map SettleEntry.baseChange).sum, 0) := by
  have hfold := sum_foldl_settleStep price feeFlat treasury scale entries []
  rw [List.map_nil, List.sum_nil, zero_add] at hfold
  set out := entries.foldl (settleStep price feeFlat treasury scale) [] with hout
  have hpair : ∀ xs : List (ℤ × ℤ), xs.sum = ((xs.map Prod.fst).sum, (xs.map Prod.snd).sum) := by
    intro xs
    induction xs with
    | nil => rfl
    | cons x xs ih => rw [List.sum_cons, ih, List.map_cons, List.sum_cons, List.map_cons,
        List.sum_cons, Prod.add_def]
  have hsum : (out.map Prod.snd).sum =
      ((entries.map SettleEntry.baseChange).sum, (out.map fun d ↦ d.2.2).sum) := by
    have hquote := hpair (out.map Prod.snd)
    have hbase := hpair (entries.map fun e ↦ (e.baseChange, e.quoteChange price scale))
    rw [List.map_map, List.map_map] at hquote hbase
    rw [hfold, hbase] at hquote
    rw [hfold, hbase]
    exact Prod.ext rfl (Prod.ext_iff.mp hquote).2
  simp only [settleDeltas, ← hout]
  split_ifs with hresid
  · rw [sum_snd_tally, hsum, Prod.mk_add_mk, add_zero, add_neg_cancel]
  · rw [not_not] at hresid
    rw [hsum, hresid]

end Deltas

end Jamswap.Engine
