import Jamswap.Service.Payload

/-!
# Who can be in a round

A round is put together by an untrusted builder out of arbitrary bytes. This module says what an
accepted round's orders can be, whatever those bytes are: entries of the market's on-chain book,
new orders signed for this market by the registered owner at a fresh seq, and sealed orders backed
one for one by entries of the market's on-chain set; what refine settles is the clearing of these.
The book and the committee are bound by their hashes, so the statement assumes that the ranges of
the payload do not collide with those two stored values (`NoCollision`); nothing is assumed about
the signature check.

`round_participation_authorised` is the result.
-/

namespace Jamswap.Service

open Library Engine Storage

/-- No range of the payload other than the stored string itself hashes to the stored string's
hash. An injective hash satisfies this for every payload and every stored string. -/
def NoCollision (P : Primitives) (data stored : Bytes) : Prop :=
  ∀ b, b <:+: data → P.blake2s b = P.blake2s stored → b = stored

/-- A new public order placed by its account's owner on this market at `seq`: the payload has it
next to the owner's key and a signature under that key. -/
def PlacedByOwner (P : Primitives) (st : Storage) (data : Bytes) (market : UInt32) (o : Order)
    (seq : UInt64) : Prop :=
  ∃ s : SignedOrder, SentIn data s ∧ s.order = o ∧ s.seq = seq ∧
    pubkeyOf st o.account = some s.pubkey ∧
    verifySigned P s.pubkey (orderMsg o.account market o.side.byte o.qty
      (hasFlag s.flags flagMarket) false s.signedPrice seq) s.sig ∧
    getU64 st (.sq o.account) < seq ∧
    (hasFlag s.flags flagMarket = false → o.price = s.signedPrice) ∧
    (hasFlag s.flags flagMarket = true → getU64 st (.lp market) ≠ 0 ∧
      (getU64 st (.lp market)).toNat * 90 ≤ o.price.toNat * 100 ∧
      o.price.toNat * 100 ≤ (getU64 st (.lp market)).toNat * 110)

/-- A ciphertext opened by the on-chain committee: one proven partial per member key. -/
def OpenedByCommittee (P : Primitives) (st : Storage) (c1 body : Bytes) (o : Order) : Prop :=
  ∃ partials plain,
    verifyAndDecrypt P c1 body (committeeKeys (st.getD .committee)) partials = some plain ∧
    committeeKeys (st.getD .committee) ≠ [] ∧
    partials.length = (committeeKeys (st.getD .committee)).length * partialLen ∧
    (∀ member ∈ (committeeKeys (st.getD .committee)).zip (records partialLen partials),
      ∃ s, verifyPartial P c1 member.1.val member.2 = some s) ∧
    (decodeOrders plain).head? = some o

/-- What backs an opened order: the hash of its revealed bytes, or of the ciphertext the committee
opened, next to its own account. -/
def SealedBacked (P : Primitives) (st : Storage) (tag : Tag) (o : Opened) : Prop :=
  match tag with
  | .reveal => ∃ bytes, bytes.length = revealLen ∧ o.order = decodeOrder (slice bytes 0 orderLen) ∧
      o.entry = (P.blake2s bytes).val ++ u32Bytes o.order.account
  | .encRound => ∃ c1 body, OpenedByCommittee P st c1 body o.order ∧
      o.entry = (P.blake2s (c1 ++ body)).val ++ u32Bytes o.order.account
  | _ => False

/-- Every order of the payload's round is authorised by the storage the round is accepted in. -/
structure RoundAuthorised (P : Primitives) (st : Storage) (data : Bytes) (inp : RoundInput) :
    Prop where
  /-- resting orders come from the on-chain book, each entry at most once and in its order -/
  book : inp.ps.book.Sublist (decodeOrders (st.getD (.book inp.market)))
  placed : ∀ a ∈ inp.ps.admitted, PlacedByOwner P st data inp.market a.1 a.2.seq
  /-- each account's new orders carry strictly increasing seqs -/
  fresh : inp.ps.admitted.Pairwise fun a a' ↦ a.1.account = a'.1.account → a.2.seq < a'.2.seq
  backed : ∀ o ∈ inp.kind.opened, SealedBacked P st inp.kind.tag o
  /-- opened orders claim distinct entries of the market's set -/
  distinct : ∀ key, inp.kind.tag.setKey inp.market = some key →
    (inp.kind.opened.map Opened.entry).Subperm (records setEntryLen (st.getD key))
  /-- these are all the orders -/
  covers : inp.orders =
    inp.ps.book ++ inp.ps.admitted.map Prod.fst ++ inp.kind.opened.map Opened.order
  /-- and what refine settles is their clearing -/
  cleared : decodeSettlement (settleSection (refine P data)) =
    some ((clear P inp.orders).price, settleEntries inp.orders (clear P inp.orders).fills)

/-! ### The three kinds of order -/

theorem admitSigned_spec {P : Primitives} {market : UInt32} {s : SignedOrder} {a : Order × Binding}
    (h : admitSigned P market s = some a) :
    a = (s.order, ⟨s.order.account, s.seq, s.pubkey, s.flags, s.order.price⟩) ∧
      (hasFlag s.flags flagMarket = false → s.order.price = s.signedPrice) ∧
      verifySigned P s.pubkey (orderMsg s.order.account market s.order.side.byte s.order.qty
        (hasFlag s.flags flagMarket) false s.signedPrice s.seq) s.sig := by
  simp only [admitSigned] at h
  split_ifs at h with hsealed hlimit hverify
  refine ⟨(Option.some.inj h).symm, fun hflag ↦ ?_, hverify⟩
  simpa [hflag] using hlimit

theorem withinBand_iff {price : UInt32} {lastPrice : UInt64} :
    withinBand price lastPrice marketBandPct ↔ lastPrice ≠ 0 ∧
      lastPrice.toNat * 90 ≤ price.toNat * 100 ∧ price.toNat * 100 ≤ lastPrice.toNat * 110 := by
  by_cases hzero : lastPrice = 0
  · simp [withinBand, hzero]
  · simp only [withinBand, marketBandPct]
    grind

namespace RoundDelivery

variable {P : Primitives} {st st' mid : Storage} {item : WorkItem} {inp : RoundInput}
  {floors : List (UInt32 × UInt64)} (h : RoundDelivery P st item inp floors mid st')

include h

theorem bindings_admitted :
    BindingsAdmitted st (getU64 st (.lp inp.market)) marketBandPct [] floors inp.ps.bindings := by
  have hadmitted := h.step.bindingsAdmitted
  rw [market_eq] at hadmitted
  simpa only [RoundInput.sections, decodeBindings_encodeBindings] using hadmitted

theorem placedByOwner {a : Order × Binding} (ha : a ∈ inp.ps.admitted) :
    PlacedByOwner P st item.payload.val inp.market a.1 a.2.seq := by
  obtain ⟨bookBytes, hpublic⟩ := h.spec.publicSection
  obtain ⟨s, hsent, hs⟩ := hpublic.admits a ha
  obtain ⟨rfl, hlimit, hverify⟩ := admitSigned_spec hs
  have hmem := List.mem_map_of_mem (f := Prod.snd) ha
  have hbinding := h.bindings_admitted.each _ hmem
  have habove := h.bindings_admitted.above _ hmem
  refine ⟨s, hsent, rfl, rfl, hbinding.registered, hverify, habove, hlimit, fun hmarket ↦ ?_⟩
  exact withinBand_iff.mp (hbinding.banded hmarket)

theorem fresh_seqs :
    inp.ps.admitted.Pairwise fun a a' ↦ a.1.account = a'.1.account → a.2.seq < a'.2.seq := by
  obtain ⟨bookBytes, hpublic⟩ := h.spec.publicSection
  have hincreasing := h.bindings_admitted.increasing
  rw [PublicSection.bindings, List.pairwise_map] at hincreasing
  refine hincreasing.imp_of_mem fun {a a'} ha ha' hlt haccount ↦ hlt ?_
  obtain ⟨s, -, hs⟩ := hpublic.admits a ha
  obtain ⟨s', -, hs'⟩ := hpublic.admits a' ha'
  obtain ⟨rfl, -, -⟩ := admitSigned_spec hs
  obtain ⟨rfl, -, -⟩ := admitSigned_spec hs'
  exact haccount

/-- The book refine matched against is the on-chain book. -/
theorem book_sublist (hbook : NoCollision P item.payload.val (st.getD (.book inp.market))) :
    inp.ps.book.Sublist (decodeOrders (st.getD (.book inp.market))) := by
  obtain ⟨bookBytes, hpublic⟩ := h.spec.publicSection
  have hhash := h.step.book_hash
  rw [market_eq] at hhash
  have hsame : bookBytes = st.getD (.book inp.market) := by
    refine hbook bookBytes hpublic.range (Subtype.ext ?_)
    calc (P.blake2s bookBytes).val = inp.ps.bookHash.val := by rw [hpublic.hash]; rfl
      _ = (P.blake2s (st.getD (.book inp.market))).val := hhash.symm
  obtain ⟨pruned, hps⟩ := hpublic.book
  rw [hps, ← hsame]
  exact List.filter_sublist

/-- The committee refine decrypted under is the on-chain committee. -/
theorem committee_eq {committee : Bytes} {opened : List Opened}
    (hkind : inp.kind = .encRound committee opened)
    (hcommittee : NoCollision P item.payload.val (st.getD .committee)) :
    committee = st.getD .committee := by
  have htag : inp.kind.tag = .encRound := by rw [hkind]; rfl
  obtain ⟨-, hhash⟩ := h.step.committee htag
  refine hcommittee committee (h.spec.committee committee opened hkind) (Subtype.ext ?_)
  have hemitted : (inp.sections P (roundId P item.payload.val)).committeeHash =
      some (P.blake2s committee).val := by
    rw [RoundInput.sections]
    simp only [hkind, RoundKind.committeeHash?]
    rfl
  rw [hemitted] at hhash
  exact Option.some.inj hhash

theorem sealedBacked (hcommittee : NoCollision P item.payload.val (st.getD .committee)) {o : Opened}
    (ho : o ∈ inp.kind.opened) : SealedBacked P st inp.kind.tag o := by
  have hspec := h.spec.opened o ho
  cases hkind : inp.kind with
  | smatch =>
    rw [hkind] at ho
    cases ho
  | reveal opened =>
    rw [hkind] at hspec
    cases hspec with
    | reveal _ bytes hlen => exact ⟨bytes, hlen, rfl, rfl⟩
  | encRound committee opened =>
    have hsame := h.committee_eq hkind hcommittee
    rw [hkind] at hspec
    cases hspec with
    | decrypted _ _ c1 body partials plain order hplain horder =>
      rw [hsame] at hplain
      obtain ⟨hkeys, hlen, hverified⟩ := verifyAndDecrypt_verified P hplain
      exact ⟨c1, body, ⟨partials, plain, hplain, hkeys, hlen, hverified, horder⟩, rfl⟩

theorem distinct_entries {key : Key} (hkey : inp.kind.tag.setKey inp.market = some key) :
    (inp.kind.opened.map Opened.entry).Subperm (records setEntryLen (st.getD key)) := by
  rw [← market_eq P inp (roundId P item.payload.val)] at hkey
  obtain ⟨rest, hrest, -⟩ := h.step.set_eq hkey
  have hrecords : records setEntryLen inp.consumed = inp.kind.opened.map Opened.entry := by
    have hwidth : ∀ o ∈ inp.kind.opened, o.entry.length = setEntryLen :=
      fun o ho ↦ (h.spec.opened o ho).entry_length
    exact records_flatMap_of_mem (by decide) Opened.entry hwidth
  have hsub := subperm_of_consume hrest
  rwa [RoundInput.sections, hrecords] at hsub

end RoundDelivery

/-- Whatever bytes a builder submits, an accepted round clears only orders that the storage it is
accepted in authorises. -/
theorem round_participation_authorised (P : Primitives) (st : Storage) (item : WorkItem) (tag : Tag)
    (htag : tagOf item.payload.val = some tag) (hround : tag.isRound)
    (haccepted : (deliver P st item).2 = .accepted)
    (hbook : NoCollision P item.payload.val (st.getD (.book (u32At item.payload.val 1))))
    (hcommittee : NoCollision P item.payload.val (st.getD .committee)) :
    ∃ inp, roundInput P item.payload.val = some inp ∧ inp.kind.tag = tag ∧
      inp.market = u32At item.payload.val 1 ∧ RoundAuthorised P st item.payload.val inp := by
  obtain ⟨inp, floors, mid, h⟩ := roundDelivery_of_accepted htag hround (Prod.ext rfl haccepted)
  have hmarket : inp.market = u32At item.payload.val 1 := h.spec.market
  rw [← hmarket] at hbook
  have hkind : inp.kind.tag = tag := Option.some.inj (h.spec.tagged.symm.trans htag)
  refine ⟨inp, h.input, hkind, hmarket, ?_⟩
  exact {
    book := h.book_sublist hbook
    placed := fun a ha ↦ h.placedByOwner ha
    fresh := h.fresh_seqs
    backed := fun o ho ↦ h.sealedBacked hcommittee ho
    distinct := fun key hkey ↦ h.distinct_entries hkey
    covers := rfl
    cleared := decodeSettlement_refine h.input }

/-! ### An accepted round -/

/-- The toy hash keeps the length and the first 24 bytes, so a short stored string is told apart
from every other string. -/
theorem noCollision_toy {data stored : Bytes} (hstored : stored.length ≤ 24)
    (hdata : data.length < 2 ^ 64) : NoCollision Primitives.toy data stored := by
  intro b hb heq
  have hlt : b.length < 2 ^ 64 := hb.length_le.trans_lt hdata
  have hval := congrArg Subtype.val heq
  simp only [Primitives.toy, FixedBytes.ofBytes, List.append_assoc] at hval
  have hheads := congrArg (List.take 8) hval
  have htails := congrArg (List.drop 8) hval
  simp only [List.take_take, List.drop_take] at hheads htails
  rw [Nat.min_eq_left (by decide), List.take_left' (by simp), List.take_left' (by simp)] at hheads
  rw [List.drop_left' (by simp), List.drop_left' (by simp)] at htails
  have hlen : b.length = stored.length := by
    have hwords := congrArg UInt64.toNat (u64Bytes_injective hheads)
    rw [UInt64.toNat_ofNat', UInt64.toNat_ofNat', Nat.mod_eq_of_lt hlt,
      Nat.mod_eq_of_lt (by omega)] at hwords
    exact hwords
  have hbytes := congrArg (List.take b.length) htails
  rw [List.take_take, List.take_take, Nat.min_eq_left (by omega), List.take_left, hlen,
    List.take_left] at hbytes
  exact hbytes

/-- Market 0 trades asset 1 against asset 2, account 2 rests a buy on its book, account 1 holds a
key. -/
def restingBuyStore : Storage :=
  Storage.set (Storage.set (Storage.set Store.empty (.mkt 0) (u32Bytes 1 ++ u32Bytes 2))
    (.book 0) (encodeOrder ⟨2, 7, .buy, 5, 3⟩)) (.pk 1) (List.replicate 32 1)

/-- Account 1 sells into that book at seq 4. -/
def signedSell : SignedOrder where
  order := ⟨1, 9, .sell, 5, 2⟩
  flags := 0
  signedPrice := 5
  seq := 4
  pubkey := FixedBytes.ofBytes 32 (List.replicate 32 1)
  sig := FixedBytes.ofBytes 64 []

def signedSellItem : WorkItem where
  slot := 100
  payload := ⟨smatchPayload 0 1 2
    (publicSectionBytes [signedSell] [] (encodeOrder ⟨2, 7, .buy, 5, 3⟩)), by decide +kernel⟩

theorem signedSellItem_authorised :
    ∃ inp, roundInput Primitives.toy signedSellItem.payload.val = some inp ∧
      inp.kind.tag = .smatch ∧ inp.market = u32At signedSellItem.payload.val 1 ∧
      RoundAuthorised Primitives.toy restingBuyStore signedSellItem.payload.val inp :=
  round_participation_authorised Primitives.toy restingBuyStore signedSellItem .smatch
    (by decide +kernel) rfl (by decide +kernel)
    (noCollision_toy (by decide +kernel) (by decide +kernel))
    (noCollision_toy (by decide +kernel) (by decide +kernel))

end Jamswap.Service
