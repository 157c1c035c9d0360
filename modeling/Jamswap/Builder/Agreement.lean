import Jamswap.Builder.Lifecycle
import Jamswap.Builder.Parity
import Jamswap.Builder.RoundTrip

/-!
# The record agrees with the round

Receipts and re-sealed remainders are handed out from the clearing the builder stored in a round's
record. Refine clears its own reading of the payload. `Round.Agrees` compares the two: the orders
are the same as multisets of terms, what refine settles is their clearing, and price, volume and the
fill of every id are equal. It holds of every draft of a well-made mempool
(`draft_agrees_with_refine`).
-/

namespace Jamswap.Builder

open Library Engine Service Committee

/-- Objects of the queue with one identity are orders of one type. -/
def State.Objects (s : State) : Prop :=
  ∀ o ∈ s.pending, ∀ o' ∈ s.pending, o.ref = o'.ref → o.otype = o'.otype

/-- A record, and the round refine reads from the payload and clears. -/
structure Round.Agrees (H : Host) (rec : Round) (payload : Bytes) (inp : RoundInput) : Prop where
  /-- the record's book is one the builder read, without what the round prunes -/
  resting : ∃ n book, H.read n (.book H.market) = some (encodeOrders book) ∧
    rec.resting = (book.map restingOrder).filter fun o ↦ o.pair ∉ rec.pruned
  orders : (inp.orders.map fun o ↦ (restingOrder o).terms).Perm
    ((rec.resting ++ rec.sealedOrders ++ rec.publicOrders).map Order.terms)
  /-- what refine settles is the clearing of these orders -/
  settled : decodeSettlement (settleSection (refine H.prims payload)) =
    some ((Engine.clear H.prims inp.orders).price,
      settleEntries inp.orders (Engine.clear H.prims inp.orders).fills)
  price : rec.clearing.price = (Engine.clear H.prims inp.orders).price.toNat
  volume : rec.clearing.volume = (Engine.clear H.prims inp.orders).volume.toNat
  filled : ∀ id : UInt32, rec.clearing.filled id.toNat =
    (filledUnder (Engine.clear H.prims inp.orders).fills id).toNat

/-- What holds of queued orders whatever their expiry holds with the expiries attached. -/
theorem forall_attachExpiry {s : State} {p : Order → Prop}
    (hp : ∀ o e, p o → p { o with expiry := e }) (h : ∀ o ∈ s.pending, p o) :
    ∀ o ∈ s.attachExpiry.pending, p o := by
  intro o ho
  obtain ⟨x, hx, rfl⟩ := List.mem_map.mp ho
  exact hp x _ (h x hx)

/-- What the auction knows of an order. -/
def Terms.offer (t : Terms) : Offer ℕ ℕ := ⟨t.side == .buy, t.price, t.oid, t.qty⟩

section Draft

variable {H : Host} {S : ScalarOps H.prims.curve} {Read : Key → Bytes → Prop} {pool : List Order}
  {raw payload : Bytes} {rec : Round}

theorem terms_sealed_draftInput (raw : Bytes) (hmade : WellMade H S rec) :
    ((H.draftInput rec raw).sealedOrders.map fun o ↦ (restingOrder o).terms) =
      rec.sealedOrders.map Order.terms := by
  simp only [Host.draftInput, RoundInput.sealedOrders, opened_roundKind, List.map_map]
  refine List.map_congr_left fun o ho ↦ ?_
  obtain ⟨terms, token, hterms, -⟩ := hmade.hidden o ho
  exact (orderBytes_spec hterms).1.terms_wire

/-- Refine clears the book, then the public orders, then the sealed ones. -/
theorem terms_draftInput (d : Draft H Read pool raw rec payload) (hmade : WellMade H S rec) :
    (H.draftInput rec raw).orders.map (fun o ↦ (restingOrder o).terms) =
      (rec.resting ++ (rec.publicOrders ++ rec.sealedOrders)).map Order.terms := by
  obtain ⟨sec, hsec, -⟩ := d.bytes
  have hbytes := publicSectionBytes_spec hmade.sigs hsec
  have hbook : ((H.draftInput rec raw).ps.book.map fun o ↦ (restingOrder o).terms) =
      rec.resting.map Order.terms := by
    rw [d.resting, ← terms_resting hbytes.pairs, List.map_map]
    rfl
  have hpublic : ((H.draftInput rec raw).ps.newOrders.map fun o ↦ (restingOrder o).terms) =
      rec.publicOrders.map Order.terms := by
    simp only [Host.draftInput, PublicSection.newOrders, builtSection, List.map_map]
    exact List.map_congr_left fun o ho ↦ (hbytes.fit o ho).1.terms_wire
  rw [RoundInput.orders, RoundInput.publicOrders, List.append_assoc, List.map_append,
    List.map_append, hbook, hpublic, terms_sealed_draftInput raw hmade, ← List.map_append,
    ← List.map_append]

/-- The record of a draft agrees with the round refine reads. -/
theorem agrees_of_draft {payload : WorkPayload}
    (d : Draft H (fun key v ↦ ∃ n, H.read n key = some v) pool raw rec payload.val)
    (hmade : WellMade H S rec) (hbooks : CanonicalBook raw)
    (hinput : roundInput H.prims payload.val = some (H.draftInput rec raw)) :
    rec.Agrees H payload.val (H.draftInput rec raw) := by
  have hlen := (roundInput_spec hinput).orders_length_lt payload.property
  have hperm : ((H.draftInput rec raw).orders.map fun o ↦ (restingOrder o).terms).Perm
      ((rec.resting ++ rec.sealedOrders ++ rec.publicOrders).map Order.terms) := by
    rw [terms_draftInput d hmade, List.append_assoc]
    exact (List.perm_append_comm.append_left _).map _
  have hbook : book Order.offer (rec.resting ++ rec.sealedOrders ++ rec.publicOrders) =
      book Engine.Order.offer (H.draftInput rec raw).orders := by
    -- an offer is a function of the terms, so equal multisets of terms give one book
    have hoffers := hperm.symm.map Terms.offer
    rw [List.map_map, List.map_map] at hoffers
    exact Multiset.coe_eq_coe.mpr hoffers
  have hclearing : rec.clearing = clear (rec.resting ++ rec.sealedOrders ++ rec.publicOrders) := by
    rw [d.record]
    rfl
  obtain ⟨hprice, hvolume, hfilled⟩ := clear_of_same_book H.prims hlen hbook
  obtain ⟨n, hread⟩ := d.book
  rw [← hclearing] at hprice hvolume hfilled
  rw [← encodeOrders_decodeOrders hbooks] at hread
  exact ⟨⟨n, decodeOrders raw, hread, d.resting⟩, hperm, decodeSettlement_refine hinput, hprice,
    hvolume, hfilled⟩

end Draft

/-- Receipts match the chain: refine reads from the payload of every draft the orders of the record,
and clears and settles them as the record says. The books the builder reads are encodings of orders,
as every book of a run of the service is. -/
theorem draft_agrees_with_refine {H : Host} (S : ScalarOps H.prims.curve) {now : Time} {n : ℕ}
    {s : State} {rec : Round} (payload : WorkPayload) (hobjects : s.Objects)
    (hbooks : ∀ n raw, H.read n (.book H.market) = some raw → CanonicalBook raw)
    (hsigned : ∀ o ∈ s.pending, o.sealed = false → o.Signed H)
    (hhidden : ∀ o ∈ s.pending, o.sealed = true → o.Hidden H)
    (hsidecar : H.encMode = true → RunsSidecar H S ∧ Decrypts H.prims S)
    (hdraft : (draftRound H now n s).1 = some (some (rec, payload.val))) :
    ∃ inp, roundInput H.prims payload.val = some inp ∧ rec.Agrees H payload.val inp := by
  have hread : H.Reads fun key v ↦ ∃ n, H.read n key = some v := fun n key v hv ↦ ⟨n, hv⟩
  obtain ⟨raw, d⟩ := draftRound_spec hread hobjects hdraft
  have hpool : ∀ o ∈ s.attachExpiry.pending, o.sealed = false → o.Signed H :=
    forall_attachExpiry (fun o e h hopen ↦ ⟨(h hopen).length, (h hopen).price, (h hopen).valid⟩)
      hsigned
  have hmade : WellMade H S rec := d.wellMade (fun o ho hopen ↦ (hpool o ho hopen).length)
    (forall_attachExpiry (fun o e h ↦ h) hhidden) hsidecar
  have hinput := d.input_of_signed hmade (fun hmode ↦ d.sealed_lt hmade hmode payload.property)
    (d.signed hpool)
  obtain ⟨n', hraw⟩ := d.book
  exact ⟨_, hinput, agrees_of_draft d hmade (hbooks n' raw hraw) hinput⟩

/-- A builder at work on a market with one resting sell order and one commit. -/
def tradingHost : Host :=
  { sampleHost (fun _ ↦ 0) fun _ ↦ false with
    read := fun _ key ↦ match key with
      | .book _ => some (encodeOrders [⟨9, 4, .sell, 5, 2⟩])
      | .commits _ => some (sampleEntry 1 1)
      | _ => some [] }

/-- A sealed sell, a public buy and a public sell of other traders are queued. -/
def tradingQueue : State :=
  let hidden := (sampleSealed 1 0).order 0
  { pending := [{ hidden with reveal := (orderBytes hidden).getD [] ++ (tradingHost.token 1).val },
      sampleBuy.order 1, (sampleSell 2).order 2] }

theorem draft_agrees_with_refine_tradingQueue :
    ∃ rec payload, (draftRound tradingHost 0 0 tradingQueue).1 = some (some (rec, payload)) ∧
      rec.sealedOrders ≠ [] ∧ rec.publicOrders ≠ [] ∧
      ∃ inp, roundInput tradingHost.prims payload = some inp ∧
        rec.Agrees tradingHost payload inp := by
  have hsome : ((draftRound tradingHost 0 0 tradingQueue).1.join.any fun draft ↦
      decide (draft.1.sealedOrders ≠ [] ∧ draft.1.publicOrders ≠ [] ∧
        draft.2.length ≤ maxInput)) = true := by decide +kernel
  have hobjects : tradingQueue.Objects := by
    unfold State.Objects
    decide +kernel
  have hsigned : ∀ o ∈ tradingQueue.pending, o.sealed = false → o.Signed tradingHost := by
    intro o ho hopen
    have hfields : o.sig.length = 64 ∧ (o.otype = .limit → o.price = o.signedPrice) := by
      revert o
      decide +kernel
    exact ⟨hfields.1, hfields.2, rfl⟩
  have hhidden : ∀ o ∈ tradingQueue.pending, o.sealed = true → o.Hidden tradingHost := by
    intro o ho hsealed
    have hmade : ∃ terms ∈ orderBytes o, o.reveal = terms ++ (tradingHost.token 1).val := by
      revert o
      decide +kernel
    obtain ⟨terms, hterms, hreveal⟩ := hmade
    exact ⟨terms, tradingHost.token 1, hterms, hreveal⟩
  cases hdraft : (draftRound tradingHost 0 0 tradingQueue).1.join with
  | none =>
    rw [hdraft] at hsome
    cases hsome
  | some draft =>
    rw [hdraft] at hsome
    obtain ⟨hsealed, hpublic, hsize⟩ := of_decide_eq_true hsome
    have hreturned := Option.join_eq_some_iff.mp hdraft
    refine ⟨draft.1, draft.2, hreturned, hsealed, hpublic, ?_⟩
    have hbooks : ∀ n raw, tradingHost.read n (.book tradingHost.market) = some raw →
        CanonicalBook raw := by
      rintro n raw ⟨⟩
      exact canonicalBook_encodeOrders _
    exact draft_agrees_with_refine toyScalars ⟨draft.2, hsize⟩ hobjects hbooks hsigned hhidden
      (fun hmode ↦ by cases hmode) hreturned

end Jamswap.Builder
