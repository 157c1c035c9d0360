import Jamswap.Service.Atomicity
import Jamswap.Service.Custody
import Jamswap.Service.SignedOps

/-!
# The bytes of the book

A round binds the book it was made on by the hash of its bytes, so a book that is decoded and
written back has to come out byte for byte. The codecs are inverse to each other in both directions,
every book the service stores is canonical, and so a cancel, which is accepted whenever its owner
sends it (`deliver_ownerCancel`), cuts records out of the stored string and leaves the rest of it
alone (`wire_codecs_inverse`).
-/

namespace Jamswap.Service

open Library Engine Storage

/-- The record is the account's order under this id. -/
def isOrderOf (account id : UInt32) (r : Bytes) : Bool := u32At r 0 == account && u32At r 4 == id

/-- Taking an order off a canonical book cuts its records out of the stored bytes. -/
theorem getD_unbook {st : Storage} {market handle oid : UInt32}
    (hbook : CanonicalBook (st.getD (.book market))) :
    (unbook st market handle oid).getD (.book market) =
      ((records orderLen (st.getD (.book market))).filter fun r ↦
        !isOrderOf handle oid r).flatten := by
  rw [unbook, getD_set_same, decodeOrders, List.filter_map, encodeOrders, List.flatMap_map,
    ← List.flatMap_id]
  refine List.flatMap_congr fun r hr ↦ ?_
  have hrecord := List.mem_of_mem_filter hr
  exact encodeOrder_decodeOrder (length_of_mem_records hrecord) (hbook.2 r hrecord)

/-- A cancel the owner of the account can send: well formed, signed with the registered key, and
under the account's nonce. -/
structure OwnerCancel (P : Primitives) (st : Storage) (data : Bytes) : Prop where
  tagged : tagOf data = some .cancel
  sized : data.length = cancelBody + 64 + 32
  owner : pubkeyOf st (u32At data 1) = some (signedKey .cancel data)
  signed : verifySigned P (signedKey .cancel data)
    (SignedOp.cancel (u32At data 1) (u32At data 5) (u32At data 9) (u64At data 13)).message
    (sig64 data cancelBody) = true
  nonce : u64At data 13 = getNonce st (u32At data 1)

section Cancel

variable {P : Primitives} {st st' : Storage} {item : WorkItem} {data : Bytes}

theorem OwnerCancel.authenticate_eq (h : OwnerCancel P st data) :
    authenticate P .cancel data = some (passedOn .cancel data) :=
  authenticate_eq_some_iff.mpr ⟨h.sized, ⟨_, rfl, h.signed⟩, rfl⟩

theorem OwnerCancel.refine_eq (h : OwnerCancel P st data) :
    refine P data = passedOn .cancel data := by
  have htag : data.head?.bind Tag.ofByte = some .cancel := h.tagged
  simp only [refine, htag, h.authenticate_eq, Option.getD_some]

/-- What its owner cancels is taken off the book. -/
theorem deliver_ownerCancel (h : OwnerCancel P st item.payload.val) :
    deliver P st item =
      (unbook (setNonce st (u32At item.payload.val 1) (u64At item.payload.val 13 + 1))
        (u32At item.payload.val 5) (u32At item.payload.val 1) (u32At item.payload.val 9),
        .accepted) := by
  have hbody : signedBody .cancel item.payload.val = 21 := rfl
  have hsized : item.payload.val.length = 117 := h.sized
  have hlen : signedBody .cancel item.payload.val ≤ item.payload.val.length := by omega
  have hout := h.refine_eq
  have hsize : (refine P item.payload.val).length = 53 := by
    rw [hout, length_passedOn hlen (by decide)]
    rfl
  have hfits : (refine P item.payload.val).length ≤ maxReportElectiveData := by
    rw [hsize]
    decide
  have htag : tagOf (refine P item.payload.val) = some .cancel := by
    rw [tagOf, hout, authenticate_head h.authenticate_eq]
    exact h.tagged
  have howner : isOwner st (u32At (refine P item.payload.val) 1)
      ((refine P item.payload.val).drop cancelBody) := by
    rw [hout, u32At_passedOn hlen (by omega)]
    exact (isOwner_passedOn hlen rfl).mpr h.owner
  have hnonce : u64At (refine P item.payload.val) 13 =
      getNonce st (u32At (refine P item.payload.val) 1) := by
    rw [hout, u64At_passedOn hlen (by omega), u32At_passedOn hlen (by omega)]
    exact h.nonce
  have hdeliver : deliver P st item =
      accumulateItem P item.slot st (refine P item.payload.val) := by
    simp only [deliver, workResult, dif_pos hfits]
  rw [hdeliver, cancel_authorised htag hsize howner hnonce, hout, u32At_passedOn hlen (by omega),
    u32At_passedOn hlen (by omega), u32At_passedOn hlen (by omega), u64At_passedOn hlen (by omega)]

/-- An accepted cancel was its owner's. -/
theorem ownerCancel_of_accepted (htag : tagOf item.payload.val = some .cancel)
    (haccepted : (deliver P st item).2 = .accepted) : OwnerCancel P st item.payload.val := by
  rcases deliver_cases P st item with hrefused | ⟨stored, tag, hdeliver, houttag, hround, hstep⟩ |
    ⟨stored, inp, floors, mid, hdeliver, hdelivery⟩
  · rw [hrefused] at haccepted
    cases haccepted
  · obtain rfl : tag = .cancel := Option.some.inj ((tagOf_refine houttag).symm.trans htag)
    obtain ⟨hsized, ⟨op, hop, hsigned⟩, hout⟩ :=
      authenticate_eq_some_iff.mp (authenticate_of_signed houttag rfl)
    cases hop
    have hbody : signedBody .cancel item.payload.val = 21 := rfl
    have hlen : signedBody .cancel item.payload.val ≤ item.payload.val.length := by omega
    rw [hout] at hstep houttag
    cases hstep with
    | cancel tagged sized owner nonce =>
      rw [u32At_passedOn hlen (by omega)] at owner
      rw [u64At_passedOn hlen (by omega), u32At_passedOn hlen (by omega)] at nonce
      exact ⟨htag, hsized, (isOwner_passedOn hlen rfl).mp owner, hsigned, nonce⟩
    | round isRound step =>
      cases houttag.symm.trans step.tagged
      cases isRound
    | _ => cases houttag.symm.trans (by assumption)
  · have hkind := (roundInput_spec hdelivery.input).tagged
    rw [htag, Option.some_inj] at hkind
    cases hinp : inp.kind <;> rw [hinp] at hkind <;> cases hkind

/-- What an accepted cancel leaves of the books. -/
theorem getD_book_ownerCancel (h : OwnerCancel P st item.payload.val) (market : UInt32)
    (hbook : CanonicalBook (st.getD (.book market))) :
    (deliver P st item).1.getD (.book market) =
      if market = u32At item.payload.val 5 then
        ((records orderLen (st.getD (.book market))).filter fun r ↦
          !isOrderOf (u32At item.payload.val 1) (u32At item.payload.val 9) r).flatten
      else st.getD (.book market) := by
  have hsame : (setNonce st (u32At item.payload.val 1) (u64At item.payload.val 13 + 1)).getD
      (.book market) = st.getD (.book market) := getD_set_ne _ _ (by simp)
  rw [deliver_ownerCancel h]
  split_ifs with hmarket
  · subst hmarket
    rw [getD_unbook (by rw [hsame]; exact hbook), hsame]
  · rw [unbook, getD_set_ne _ _ (by simpa using hmarket), hsame]

end Cancel

/-- The codecs are inverse: whatever is encoded decodes to itself, and whole records with side bytes
of 0 or 1 are what they decode to. Every book in a run of the service is of this kind. A cancel is
accepted if and only if it is its owner's, and takes the account's records of the id out of the
bytes of its market's book, leaving the others and all other books as they are. -/
theorem wire_codecs_inverse (P : Primitives) :
    (∀ orders, decodeOrders (encodeOrders orders) = orders) ∧
    (∀ orders, decodeSignedOrders (encodeSignedOrders orders) = orders) ∧
    (∀ bindings, decodeBindings (encodeBindings bindings) = bindings) ∧
    (∀ c : Clearing, c.fills.length < 2 ^ 32 → decodeClearing (encodeClearing c) = some c) ∧
    (∀ data, CanonicalBook data → encodeOrders (decodeOrders data) = data) ∧
    (∀ data, signedOrderLen ∣ data.length →
      (∀ r ∈ records signedOrderLen data, byteAt r 8 = 0 ∨ byteAt r 8 = 1) →
        encodeSignedOrders (decodeSignedOrders data) = data) ∧
    (∀ data, bindingLen ∣ data.length → encodeBindings (decodeBindings data) = data) ∧
    (∀ items market, CanonicalBook ((runItems P Store.empty items).getD (.book market))) ∧
    ∀ (items : List WorkItem) (item : WorkItem), tagOf item.payload.val = some .cancel →
      ((deliver P (runItems P Store.empty items) item).2 = .accepted ↔
        OwnerCancel P (runItems P Store.empty items) item.payload.val) ∧
      (OwnerCancel P (runItems P Store.empty items) item.payload.val →
        ∀ market, (deliver P (runItems P Store.empty items) item).1.getD (.book market) =
          if market = u32At item.payload.val 5 then
            ((records orderLen ((runItems P Store.empty items).getD (.book market))).filter fun r ↦
              !isOrderOf (u32At item.payload.val 1) (u32At item.payload.val 9) r).flatten
          else (runItems P Store.empty items).getD (.book market)) := by
  refine ⟨decodeOrders_encodeOrders, decodeSignedOrders_encodeSignedOrders,
    decodeBindings_encodeBindings, fun c ↦ decodeClearing_encodeClearing,
    fun data ↦ encodeOrders_decodeOrders, fun data ↦ encodeSignedOrders_decodeSignedOrders,
    fun data ↦ encodeBindings_decodeBindings, canonicalBooks_run P, ?_⟩
  intro items item htag
  refine ⟨⟨ownerCancel_of_accepted htag, fun h ↦ by rw [deliver_ownerCancel h]⟩, fun h market ↦ ?_⟩
  exact getD_book_ownerCancel h market (canonicalBooks_run P items market)

/-- Two accounts leave a buy on the book, under the same id. -/
def twoBuysItem : WorkItem :=
  ⟨6, ⟨smatchPayload 0 1 2 (publicSectionBytes [signedTen 1 7 .buy 1, signedTen 2 7 .buy 2] [] []),
    by decide +kernel⟩⟩

/-- Account 1 cancels its own. -/
def firstBuyCancel : WorkItem :=
  ⟨7, ⟨[Tag.cancel.byte] ++ u32Bytes 1 ++ u32Bytes 0 ++ u32Bytes 7 ++ u64Bytes 0 ++
    List.replicate 64 0 ++ List.replicate 32 1, by decide +kernel⟩⟩

/-- The cancel is accepted, and the other account's buy is left. -/
theorem wire_codecs_inverse_firstBuyCancel :
    (runItems Primitives.toy Store.empty (openingItems ++ [twoBuysItem])).getD (.book 0) =
        encodeOrders [⟨1, 7, .buy, 5, 10⟩, ⟨2, 7, .buy, 5, 10⟩] ∧
      (deliver Primitives.toy (runItems Primitives.toy Store.empty (openingItems ++ [twoBuysItem]))
        firstBuyCancel).2 = .accepted ∧
      (deliver Primitives.toy (runItems Primitives.toy Store.empty (openingItems ++ [twoBuysItem]))
        firstBuyCancel).1.getD (.book 0) = encodeOrders [⟨2, 7, .buy, 5, 10⟩] := by
  obtain ⟨haccepted, hbooks⟩ := (wire_codecs_inverse Primitives.toy).2.2.2.2.2.2.2.2
    (openingItems ++ [twoBuysItem]) firstBuyCancel (by decide +kernel)
  have howner : OwnerCancel Primitives.toy
      (runItems Primitives.toy Store.empty (openingItems ++ [twoBuysItem]))
      firstBuyCancel.payload.val :=
    ⟨by decide +kernel, by decide +kernel, by decide +kernel, by decide +kernel, by decide +kernel⟩
  refine ⟨by decide +kernel, haccepted.mpr howner, (hbooks howner 0).trans ?_⟩
  decide +kernel

end Jamswap.Service
