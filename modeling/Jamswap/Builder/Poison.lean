import Jamswap.Builder.Agreement
import Jamswap.Builder.Crossing
import Jamswap.Builder.Pricing
import Jamswap.Service.Acceptance
import Jamswap.Service.ReadBack
import Jamswap.Service.StoredWords

/-!
# No poison rounds

One bad order makes accumulate refuse everyone's round, so the builder re-checks on its own side
what the service will check: floors, the band of market orders, the commits of sealed orders. A
draft that was made from the reads of one chain state passes every check on that state
(`acceptable_of_draft`), and so it is accepted there exactly when its output is within the
platform's bound (`draft_accepted`). The builder does not look at the output: on a book that fills
it one more order is too many (`full_book_draft_refused`).
-/

namespace Jamswap.Builder

open Library Engine Service Committee

/-! ### What accumulate is shown of a draft -/

section Input

variable (H : Host) (rec : Round) (raw : Bytes)

theorem bindings_draftInput :
    (H.draftInput rec raw).ps.bindings = rec.publicOrders.map Order.binding := by
  simp only [Host.draftInput, PublicSection.bindings, builtSection, List.map_map]
  rfl

theorem length_consumedEntry (o : Order) : (H.consumedEntry o).length = setEntryLen := by
  rw [Host.consumedEntry, List.length_append, FixedBytes.length_val, length_u32Bytes]
  rfl

theorem consumed_draftInput :
    (H.draftInput rec raw).consumed = rec.sealedOrders.flatMap H.consumedEntry := by
  simp only [RoundInput.consumed, Host.draftInput, opened_roundKind, List.flatMap_map]
  rfl

theorem records_consumed_draftInput :
    records setEntryLen (H.draftInput rec raw).consumed = rec.sealedOrders.map H.consumedEntry := by
  rw [consumed_draftInput]
  exact records_flatMap (by decide) _ (length_consumedEntry H) _

theorem setKey_draftInput {key : Key}
    (h : (H.draftInput rec raw).kind.tag.setKey H.market = some key) :
    key = H.setKey := by
  unfold Host.draftInput Host.roundKind at h
  simp only [] at h
  split_ifs at h with hnone henc
  · cases h
  · cases h
    rw [Host.setKey, if_pos henc]
  · cases h
    rw [Host.setKey, if_neg henc]

theorem encRound_draftInput_iff : (H.draftInput rec raw).kind.tag = .encRound ↔
    H.encMode = true ∧ rec.sealedOrders ≠ [] := by
  unfold Host.draftInput Host.roundKind
  simp only []
  split_ifs with hnone hmode
  · exact ⟨fun htag ↦ (by cases htag), fun h ↦ absurd hnone h.2⟩
  · exact ⟨fun _ ↦ ⟨hmode, hnone⟩, fun _ ↦ rfl⟩
  · exact ⟨fun htag ↦ (by cases htag), fun h ↦ absurd h.1 hmode⟩

variable {H rec raw}

/-- An encrypted round names the sidecar's own committee. -/
theorem committeeHash_draftInput (htag : (H.draftInput rec raw).kind.tag = .encRound) :
    (H.draftInput rec raw).kind.committeeHash? H.prims =
      some (committeeHash H.prims (fixedBlob H.prims)).val := by
  obtain ⟨hmode, hsome⟩ := (encRound_draftInput_iff H rec raw).mp htag
  rw [Host.draftInput, Host.roundKind, if_neg hsome, if_pos hmode]
  rfl

end Input

/-! ### A round that only prunes -/

/-- What clearing leaves on the book is no longer than what went in. -/
theorem length_clearRound_book_le (P : Primitives) (ps : PublicSection)
    (sealedOrders : List Engine.Order) :
    (clearRound P ps sealedOrders).book.length ≤
      (ps.book ++ ps.newOrders ++ sealedOrders).length * orderLen := by
  simp only [clearRound]
  rw [length_encodeOrders]
  refine Nat.mul_le_mul_right _ ((List.length_filter_le _ _).trans ?_)
  exact List.length_filterMap_le _ _

section Draft

variable {H : Host} {S : ScalarOps H.prims.curve} {pool : List Order} {raw payload : Bytes}
  {rec : Round} {st : Storage}

/-- A round that only prunes leaves a shorter book. -/
theorem book_ne_of_pruned {Read : Key → Bytes → Prop} (d : Draft H Read pool raw rec payload)
    (hmade : WellMade H S rec) (hpublic : rec.publicOrders = []) (hsealed : rec.sealedOrders = []) :
    raw ≠ (clearRound H.prims (H.draftInput rec raw).ps
      (H.draftInput rec raw).sealedOrders).book := by
  obtain ⟨sec, hsec, -⟩ := d.bytes
  have hpairs := (publicSectionBytes_spec hmade.sigs hsec).pairs
  have hpruned : rec.pruned ≠ [] := fun hnone ↦ d.some_orders ⟨hsealed, hpublic, hnone⟩
  obtain ⟨p, hp⟩ := List.exists_mem_of_ne_nil _ hpruned
  have hshort : rec.resting.length < (parseBook raw).length := by
    obtain ⟨o, ho, hpair⟩ := List.mem_map.mp (d.pruned p hp)
    rw [d.resting]
    refine List.length_filter_lt_length_iff_exists.mpr ⟨o, ho, ?_⟩
    simpa [hpair] using hp
  have horders : ((H.draftInput rec raw).ps.book ++ (H.draftInput rec raw).ps.newOrders ++
      (H.draftInput rec raw).sealedOrders).length = rec.resting.length := by
    have hterms := congrArg List.length (terms_draftInput d hmade)
    rw [List.length_map, List.length_map, hpublic, hsealed, List.append_nil,
      List.append_nil] at hterms
    exact hterms
  have hle := length_clearRound_book_le H.prims (H.draftInput rec raw).ps
    (H.draftInput rec raw).sealedOrders
  have hraw : (parseBook raw).length * orderLen ≤ raw.length := by
    rw [parseBook, List.length_map, decodeOrders, List.length_map, length_records]
    exact Nat.div_mul_le_self _ _
  intro hsame
  rw [← hsame, horders] at hle
  have := Nat.mul_lt_mul_of_pos_right hshort (show 0 < orderLen by decide)
  omega

/-- A draft made from the reads of one chain state passes the checks of that state. -/
theorem acceptable_of_draft (d : Draft H (fun key v ↦ v = st.getD key) pool raw rec payload)
    (hmade : WellMade H S rec) (hwords : StoredWords st)
    (hlisted : marketAssets st H.market = some (H.base, H.quote))
    (hkeys : ∀ o ∈ pool, o.sealed = false → pubkeyOf st o.account = some o.pubkey)
    (hdistinct : (rec.sealedOrders.map H.consumedEntry).Nodup)
    (hcommittee : H.encMode = true → st.getD .committee = fixedBlob H.prims) :
    (H.draftInput rec raw).Acceptable H.prims st := by
  have hraw : raw = st.getD (.book H.market) := d.book
  obtain ⟨sec, hsec, -⟩ := d.bytes
  have hfit := (publicSectionBytes_spec hmade.sigs hsec).fit
  constructor
  · exact hlisted
  · intro hbindings hconsumed
    rw [bindings_draftInput, List.map_eq_nil_iff] at hbindings
    have hsealed : rec.sealedOrders = [] := by
      have hrecords := records_consumed_draftInput H rec raw
      rw [hconsumed, records_nil] at hrecords
      exact List.map_eq_nil_iff.mp hrecords.symm
    show st.getD (.book H.market) ≠ _
    rw [← hraw]
    exact book_ne_of_pruned d hmade hbindings hsealed
  · intro htag
    rw [committeeHash_draftInput htag, hcommittee ((encRound_draftInput_iff H rec raw).mp htag).1]
    exact ⟨List.cons_ne_nil _ _, rfl⟩
  · show commitment H.prims (st.getD (.book H.market)) = commitment H.prims raw
    rw [hraw]
  · intro b hb
    rw [bindings_draftInput] at hb
    obtain ⟨o, ho, rfl⟩ := List.mem_map.mp hb
    obtain ⟨o', ho', hopen, hpriced⟩ := d.priced o ho
    have hkey := hkeys o' ho' hopen
    cases hpriced with
    | limit _ => exact hkey
    | market _ _ _ _ => exact hkey
  · intro b hb hmarket
    rw [bindings_draftInput] at hb
    obtain ⟨o, ho, rfl⟩ := List.mem_map.mp hb
    obtain ⟨o', -, -, hpriced⟩ := d.priced o ho
    have hflag : hasFlag o.flags flagMarket = true := hmarket
    rw [hasFlag_flags, decide_eq_true_iff] at hflag
    cases hpriced with
    | limit hlimit =>
      rw [hlimit] at hflag
      cases hflag
    | market _ lp hread hlp =>
      have hword := toNat_getU64 hwords (k := .lp H.market) (Or.inr ⟨_, rfl⟩)
      rw [← hread] at hword
      have hprice := (hfit _ ho).1.price
      rw [← hword] at hlp
      show withinBand (UInt32.ofNat (marketPrice o'.side (leValue lp))) _ _ = true
      simp only [← hword] at hprice ⊢
      exact withinBand_marketPrice hlp hprice
  · intro b hb
    rw [bindings_draftInput] at hb
    obtain ⟨o, ho, rfl⟩ := List.mem_map.mp hb
    obtain ⟨floor, hread, habove⟩ := d.above o ho
    rw [hread, ← toNat_getU64 hwords (Or.inl ⟨_, rfl⟩)] at habove
    exact UInt64.lt_iff_toNat_lt.mpr habove
  · rw [bindings_draftInput, List.pairwise_map]
    exact d.increasing
  · intro key hkey
    rw [setKey_draftInput H rec raw hkey, records_consumed_draftInput]
    refine List.subperm_of_subset hdistinct fun e he ↦ ?_
    obtain ⟨o, ho, rfl⟩ := List.mem_map.mp he
    obtain ⟨entries, hread, hmem⟩ := d.ready o ho
    rw [hread] at hmem
    exact hmem

end Draft

/-! ### Accepted where it was made -/

/-- The chain state the builder reads, as the service left it: the market is listed under the
builder's assets, and in encrypted mode the committee on chain is the sidecar's. -/
structure Host.Faces (H : Host) (S : ScalarOps H.prims.curve) (st : Storage) : Prop where
  reads : H.Reads fun key v ↦ v = st.getD key
  words : StoredWords st
  canonical : CanonicalBook (st.getD (.book H.market))
  listed : marketAssets st H.market = some (H.base, H.quote)
  committee : H.encMode = true →
    RunsSidecar H S ∧ Decrypts H.prims S ∧ st.getD .committee = fixedBlob H.prims

/-- A mempool whose public orders are validly signed by registered keys and whose sealed orders have
distinct commitments, each of the order's own bytes. -/
structure State.Admissible (H : Host) (st : Storage) (s : State) : Prop where
  objects : s.Objects
  signed : ∀ o ∈ s.pending, o.sealed = false →
    o.Signed H ∧ pubkeyOf st o.account = some o.pubkey
  hidden : ∀ o ∈ s.pending, o.sealed = true → o.Hidden H ∧
    o.commit = some (commitment H.prims (if H.encMode then o.ciphertext else o.reveal))
  distinct : ((s.pending.filter fun o ↦ o.sealed).map Order.commit).Nodup

variable {o : Order} {resting : List Order} {n : ℕ}

section Accepted

variable {H : Host} {S : ScalarOps H.prims.curve} {st : Storage} {s : State}

/-- The consumed entry of a sealed order names its commitment. -/
theorem State.Admissible.commit_eq (hpool : s.Admissible H st) {o' : Order}
    (ho : o ∈ s.attachExpiry.pending) (ho' : o' ∈ s.attachExpiry.pending)
    (hsealed : o.sealed = true) (hsealed' : o'.sealed = true)
    (h : H.consumedEntry o = H.consumedEntry o') : o.commit = o'.commit := by
  have hcommit := forall_attachExpiry (s := s) (fun o e h ↦ h)
    fun o ho hsealed ↦ (hpool.hidden o ho hsealed).2
  have hhash := (List.append_inj h (by rw [FixedBytes.length_val, FixedBytes.length_val])).1
  rw [hcommit o ho hsealed, hcommit o' ho' hsealed', Subtype.ext hhash]

theorem State.Admissible.consumed_nodup (hpool : s.Admissible H st) {orders : List Order}
    (hsub : orders.Subperm s.attachExpiry.pending) (hsealed : ∀ o ∈ orders, o.sealed = true) :
    (orders.map H.consumedEntry).Nodup := by
  have hcommits : (orders.map Order.commit).Nodup := by
    have hall : orders.filter (fun o ↦ o.sealed) = orders := List.filter_eq_self.mpr hsealed
    have hpending : (s.attachExpiry.pending.filter fun o ↦ o.sealed).map Order.commit =
        (s.pending.filter fun o ↦ o.sealed).map Order.commit := by
      rw [State.attachExpiry, List.filter_map, List.map_map]
      rfl
    obtain ⟨kept, hperm, hkept⟩ := hsub.filter fun o ↦ o.sealed
    rw [hall] at hperm
    apply (hperm.map Order.commit).nodup_iff.mp
    apply List.Nodup.sublist (hkept.map Order.commit)
    rw [hpending]
    exact hpool.distinct
  rw [List.Nodup, List.pairwise_map] at hcommits ⊢
  refine hcommits.imp_of_mem fun {o o'} ho ho' hne heq ↦ hne ?_
  exact hpool.commit_eq (hsub.subset ho) (hsub.subset ho') (hsealed o ho) (hsealed o' ho') heq

/-- Refine reads a draft, and the state it was made on passes it. -/
theorem acceptable_draftInput {now : Time} {n : ℕ} {rec : Round} {payload : WorkPayload}
    (hhost : H.Faces S st) (hpool : s.Admissible H st)
    (hdraft : (draftRound H now n s).1 = some (some (rec, payload.val))) :
    ∃ raw, roundInput H.prims payload.val = some (H.draftInput rec raw) ∧
      (H.draftInput rec raw).Acceptable H.prims st := by
  obtain ⟨raw, d⟩ := draftRound_spec hhost.reads hpool.objects hdraft
  have hsigned : ∀ o ∈ s.attachExpiry.pending, o.sealed = false →
      o.Signed H ∧ pubkeyOf st o.account = some o.pubkey :=
    forall_attachExpiry (fun o e h hopen ↦
      ⟨⟨(h hopen).1.length, (h hopen).1.price, (h hopen).1.valid⟩, (h hopen).2⟩) hpool.signed
  have hmade : WellMade H S rec := d.wellMade (fun o ho hopen ↦ (hsigned o ho hopen).1.length)
    (forall_attachExpiry (fun o e h ↦ h) fun o ho hsealed ↦ (hpool.hidden o ho hsealed).1)
    fun hmode ↦ ⟨(hhost.committee hmode).1, (hhost.committee hmode).2.1⟩
  refine ⟨raw, ?_, ?_⟩
  · exact d.input_of_signed hmade (fun hmode ↦ d.sealed_lt hmade hmode payload.property)
      (d.signed fun o ho hopen ↦ (hsigned o ho hopen).1)
  · exact acceptable_of_draft d hmade hhost.words hhost.listed
      (fun o ho hopen ↦ (hsigned o ho hopen).2)
      (hpool.consumed_nodup d.sealed_pool d.isSealed) fun hmode ↦ (hhost.committee hmode).2.2

end Accepted

/-- A draft is accepted by refine, and by accumulate on the state it was made on exactly when the
output is one the platform hands over. -/
theorem draft_accepted {H : Host} (S : ScalarOps H.prims.curve) {st : Storage} {now : Time} {n : ℕ}
    {s : State} {rec : Round} (payload : WorkPayload) (slot : UInt32) (hhost : H.Faces S st)
    (hpool : s.Admissible H st)
    (hdraft : (draftRound H now n s).1 = some (some (rec, payload.val))) :
    refine H.prims payload.val ≠ [] ∧
      ((deliver H.prims st ⟨slot, payload⟩).2 = .accepted ↔
        (refine H.prims payload.val).length ≤ maxReportElectiveData) := by
  obtain ⟨raw, hinput, hacceptable⟩ := acceptable_draftInput hhost hpool hdraft
  rw [refine_of_roundInput hinput]
  refine ⟨fun hempty ↦ ?_, (deliver_accepted_iff hinput).trans (and_iff_left hacceptable)⟩
  have htag := (output_header H.prims (H.draftInput rec raw) (roundId H.prims payload.val)).1
  rw [hempty] at htag
  cases htag

/-- A market with one resting sell order, one commit and two registered accounts. -/
def tradingStorage : Storage :=
  let listed := Storage.set Store.empty (.mkt 1) (u32Bytes 1 ++ u32Bytes 0)
  let registered := Storage.set (Storage.set listed (.pk 7) (List.replicate 32 0)) (.pk 8)
    (List.replicate 32 0)
  let committed := Storage.set registered (.commits 1) (sampleEntry 1 1)
  Storage.set committed (.book 1) (encodeOrders [⟨9, 4, .sell, 5, 2⟩])

def facingHost : Host := (sampleHost (fun _ ↦ 0) fun _ ↦ false).on tradingStorage

/-- The queue of `tradingQueue`, its sealed order committed. -/
def facingQueue : State :=
  let hidden := (sampleSealed 1 0).order 0
  let reveal := (orderBytes hidden).getD [] ++ (facingHost.token 1).val
  { pending := [{ hidden with reveal, commit := some (commitment Primitives.toy reveal) },
      sampleBuy.order 1, (sampleSell 2).order 2] }

theorem draft_accepted_facingQueue :
    ∃ rec payload, (draftRound facingHost 0 0 facingQueue).1 = some (some (rec, payload)) ∧
      rec.sealedOrders ≠ [] ∧ rec.publicOrders ≠ [] ∧
      ∃ hsize : payload.length ≤ maxInput,
        (deliver facingHost.prims tradingStorage ⟨0, payload, hsize⟩).2 = .accepted := by
  have hsome : ((draftRound facingHost 0 0 facingQueue).1.join.any fun draft ↦
      decide (draft.1.sealedOrders ≠ [] ∧ draft.1.publicOrders ≠ [] ∧
        draft.2.length ≤ maxInput ∧
        (refine facingHost.prims draft.2).length ≤ maxReportElectiveData)) = true := by
    decide +kernel
  have hhost : facingHost.Faces toyScalars tradingStorage := by
    refine ⟨Host.reads_on _ _, ?_, canonicalBook_encodeOrders _, by decide +kernel,
      fun hmode ↦ by cases hmode⟩
    iterate 5 refine StoredWords.set_other ?_ (by simp [wordKeys]) _
    exact storedWords_empty
  have hpool : facingQueue.Admissible facingHost tradingStorage := by
    refine ⟨?_, fun o ho hopen ↦ ?_, fun o ho hsealed ↦ ?_, by decide +kernel⟩
    · unfold State.Objects
      decide +kernel
    · have hfields : (o.sig.length = 64 ∧ (o.otype = .limit → o.price = o.signedPrice)) ∧
          pubkeyOf tradingStorage o.account = some o.pubkey := by
        revert o
        decide +kernel
      exact ⟨⟨hfields.1.1, hfields.1.2, rfl⟩, hfields.2⟩
    · have hmade : (∃ terms ∈ orderBytes o, o.reveal = terms ++ (facingHost.token 1).val) ∧
          o.commit = some (commitment facingHost.prims o.reveal) := by
        revert o
        decide +kernel
      obtain ⟨⟨terms, hterms, hreveal⟩, hcommit⟩ := hmade
      exact ⟨⟨terms, facingHost.token 1, hterms, hreveal⟩, hcommit⟩
  cases hdraft : (draftRound facingHost 0 0 facingQueue).1.join with
  | none =>
    rw [hdraft] at hsome
    cases hsome
  | some draft =>
    rw [hdraft] at hsome
    obtain ⟨hsealed, hpublic, hsize, hout⟩ := of_decide_eq_true hsome
    have hreturned := Option.join_eq_some_iff.mp hdraft
    refine ⟨draft.1, draft.2, hreturned, hsealed, hpublic, hsize, ?_⟩
    exact (draft_accepted toyScalars ⟨draft.2, hsize⟩ 0 hhost hpool hreturned).2.mpr hout

/-! ### A full book -/

/-- The order that fills the book. -/
def fillingSell : Engine.Order := ⟨1, 7, .sell, 5, 1⟩

def fullBook (n : ℕ) : Bytes := encodeOrders (List.replicate n fillingSell)

def fullStorage (n : ℕ) : Storage :=
  let listed := Storage.set Store.empty (.mkt 1) (u32Bytes 1 ++ u32Bytes 0)
  let registered := Storage.set listed (.pk 1) (List.replicate 32 0)
  Storage.set registered (.book 1) (fullBook n)

def fullHost (n : ℕ) : Host := (sampleHost (fun _ ↦ 0) fun _ ↦ false).on (fullStorage n)

def lastSell : Order :=
  { ref := 0, account := 1, oid := 7, side := .sell, price := 5, qty := 1
    sig := List.replicate 64 0, seq := 1, signedPrice := 5 }

def lastQueue : State := { pending := [lastSell] }

/-- The plan of a lone public order. -/
def lonePlan (o : Order) : RoundPlan := ⟨[], [o], [], [], [], []⟩

theorem planRound_lone {now : Time} {ready : Order → Bool} (hopen : o.sealed = false) :
    planRound [o] resting now ready = lonePlan o := by
  simp [planRound, lonePlan, hopen]

theorem planBatch_lone (resting : List Order) (now : Time) (ready : Order → Bool)
    {fit : List Order → List Order} (hopen : o.sealed = false) (hfit : fit [o] = [o]) :
    planBatch [o] resting fit now ready = lonePlan o := by
  have hall : ∀ ready : Order → Bool, planRound [o] resting now ready = lonePlan o := fun ready ↦
    planRound_lone hopen
  simp only [planBatch, hall]
  simp [lonePlan, refill, hopen, hfit, hall]

/-- The resting orders of the full book; no order on it has an expiry. -/
def fullResting (raw : Bytes) : List Order :=
  (parseBook raw).filter fun o ↦ o.pair ∉ ([] : List Pair)

theorem planStep_full (n : ℕ) : ∃ k s', planStep (fullHost n) 0 0 lastQueue =
    (some (lonePlan lastSell, fullResting (fullBook n), fullBook n, []), k, s') ∧
      s'.zombies = [] := by
  have hbook : (fullStorage n).getD (.book 1) = fullBook n := Storage.getD_set_same _ _ _
  rw [← hbook]
  have hpruned : lastQueue.expiredPairs 0 ((fullStorage n).getD (.book 1)) = [] := by
    simp [State.expiredPairs, lastQueue, expiredAt]
  have hfit : (fullHost n).fit 0 none [lastSell] = [lastSell] :=
    (by decide +kernel :
      (sampleHost (fun _ ↦ 0) fun _ ↦ false).fit 0 none [lastSell] = [lastSell])
  have hplan := planBatch_lone (o := lastSell) (fullResting ((fullStorage n).getD (.book 1))) 0
    (fun _ ↦ true) rfl hfit
  rw [← hplan, fullResting, ← hpruned]
  exact ⟨_, _, rfl, rfl⟩

/-- The order as the payload carries it. -/
def lastSigned : SignedOrder :=
  ⟨fillingSell, 0, 5, 1, FixedBytes.ofBytes 32 [], FixedBytes.ofBytes 64 []⟩

/-- The payload of the lone order on a book of `n`. -/
def fullDraft (n : ℕ) : Bytes :=
  smatchPayload 1 1 0 (Service.publicSectionBytes [lastSigned] [] (fullBook n))

theorem draftRound_full (n : ℕ) :
    ∃ rec, (draftRound (fullHost n) 0 0 lastQueue).1 = some (some (rec, fullDraft n)) ∧
      rec.sealedOrders = [] ∧ rec.publicOrders = [lastSell] ∧ rec.pruned = [] := by
  obtain ⟨k, s, hplan, hzombies⟩ := planStep_full n
  have hwatch : ∀ k, watchReleased (fullHost n) k s = (some [], k, s) := by
    intro k
    show (if s.zombies = [] then pure [] else _ : B (List OKey)) k s = _
    rw [if_pos hzombies]
    rfl
  refine ⟨(fullHost n).record s.refs 0 [] [lastSell] (fullResting (fullBook n)) [] (fullBook n)
    (fullDraft n), ?_, rfl, rfl, rfl⟩
  rw [draftRound, Prog.bind_of_some _ (congrArg Prod.fst hplan), hplan]
  -- one read, of the account's floor, comes before the look at the released rounds
  show ((watchReleased (fullHost n) >>= _) (k + 1) s).1 = _
  rw [Prog.bind_of_some _ (congrArg Prod.fst (hwatch _)), hwatch]
  rfl

theorem roundInput_full (n : ℕ) :
    ∃ inp, roundInput Primitives.toy (fullDraft n) = some inp ∧ inp.kind = .smatch ∧
      inp.ps.bindings.length = 1 ∧
      inp.ps.book ++ inp.ps.newOrders = List.replicate (n + 1) fillingSell := by
  have hinput : roundInput Primitives.toy (fullDraft n) = some _ :=
    (roundInput_smatchPayload (by simp) (by simp)).trans rfl
  refine ⟨_, hinput, rfl, rfl, ?_⟩
  have hbook : (decodeOrders (fullBook n)).filter
      (fun o ↦ !([] : List (UInt32 × UInt32)).contains (o.account, o.id)) =
        List.replicate n fillingSell := by
    simp [fullBook, decodeOrders_encodeOrders]
  rw [List.replicate_succ', ← hbook]
  rfl

/-- Nothing trades among sells, so all of them rest. -/
theorem length_book_full {ps : PublicSection} {m : ℕ}
    (h : ps.book ++ ps.newOrders = List.replicate m fillingSell) :
    (clearRound Primitives.toy ps []).book.length = m * orderLen := by
  have hfills : (Engine.clear Primitives.toy (List.replicate m fillingSell)).fills = [] := by
    apply clear_of_no_demand
    intro o ho hside
    rw [List.eq_of_mem_replicate ho] at hside
    cases hside
  have hrest : Engine.resting (List.replicate m fillingSell)
      (Engine.clear Primitives.toy (List.replicate m fillingSell)) =
        List.replicate m fillingSell := by
    have hrem : fillingSell.remainder [] = 1 := by decide
    rw [Engine.resting, hfills, List.filterMap_replicate, hrem]
    rfl
  simp only [clearRound, List.append_nil, h, hrest, List.any_nil, Bool.not_false,
    List.filter_true, length_encodeOrders, List.length_replicate]

theorem length_refine_full (n : ℕ) :
    132 + (n + 1) * 17 ≤ (refine Primitives.toy (fullDraft n)).length := by
  obtain ⟨inp, hinput, hkind, hbindings, horders⟩ := roundInput_full n
  have hbook := length_book_full horders
  simp only [refine_of_roundInput hinput, RoundInput.output, hkind, smatchOutput,
    List.length_append, length_header, length_pushAuthTrailer, hbindings, hbook, bindingLen,
    orderLen]
  omega

theorem length_fullDraft (n : ℕ) : (fullDraft n).length = 143 + n * 17 := by
  simp only [fullDraft, fullBook, smatchPayload, Service.publicSectionBytes, List.length_append,
    length_matchHeader, length_u16Bytes, encodeSignedOrders, List.flatMap_cons, List.flatMap_nil,
    List.append_nil, List.length_nil, length_encodeSignedOrder, length_encodeOrders,
    List.length_replicate, signedOrderLen, orderLen]
  omega

theorem faces_full (n : ℕ) : (fullHost n).Faces toyScalars (fullStorage n) := by
  refine ⟨Host.reads_on _ _, ?_, ?_, ?_, fun hmode ↦ by cases hmode⟩
  · iterate 3 refine StoredWords.set_other ?_ (by simp [wordKeys]) _
    exact storedWords_empty
  · exact (Storage.getD_set_same _ _ _).symm ▸ canonicalBook_encodeOrders _
  · show marketAssets (fullStorage n) 1 = some (1, 0)
    have hlisted : (fullStorage n).get (.mkt 1) = some (u32Bytes 1 ++ u32Bytes 0) := rfl
    rw [marketAssets, hlisted]
    decide +kernel

theorem admissible_full (n : ℕ) : lastQueue.Admissible (fullHost n) (fullStorage n) := by
  have hlone : ∀ o ∈ lastQueue.pending, o = lastSell := fun o ho ↦ List.mem_singleton.mp ho
  refine ⟨fun o ho o' ho' _ ↦ ?_, fun o ho _ ↦ ?_, fun o ho hsealed ↦ ?_, by decide +kernel⟩
  · rw [hlone o ho, hlone o' ho']
  · rw [hlone o ho]
    refine ⟨⟨rfl, fun _ ↦ rfl, rfl⟩, ?_⟩
    have hkey : (fullStorage n).get (.pk 1) = some (List.replicate 32 0) := rfl
    simp only [pubkeyOf, lastSell, hkey]
    decide +kernel
  · rw [hlone o ho] at hsealed
    cases hsealed

/-- A draft of one public order on a chain state that meets every condition and is refused: 2883
resting orders, the most a round that adds one can leave, take up the bytes of its output. -/
theorem full_book_draft_refused :
    ∃ (H : Host) (S : ScalarOps H.prims.curve) (st : Storage) (s : State)
    (rec : Round) (payload : WorkPayload), H.Faces S st ∧ s.Admissible H st ∧
      (draftRound H 0 0 s).1 = some (some (rec, payload.val)) ∧
      rec.sealedOrders.length + rec.publicOrders.length + rec.pruned.length = 1 ∧
      (deliver H.prims st ⟨0, payload⟩).2 ≠ .accepted := by
  obtain ⟨n, hn⟩ : ∃ n, n = 2883 := ⟨_, rfl⟩
  obtain ⟨rec, hdraft, hsealed, hpublic, hpruned⟩ := draftRound_full n
  have hsize : (fullDraft n).length ≤ maxInput := by
    rw [length_fullDraft, maxInput]
    omega
  have hlong : ¬ (refine Primitives.toy (fullDraft n)).length ≤ maxReportElectiveData := by
    have := length_refine_full n
    rw [maxReportElectiveData]
    omega
  refine ⟨fullHost n, toyScalars, fullStorage n, lastQueue, rec, ⟨fullDraft n, hsize⟩,
    faces_full n, admissible_full n, hdraft, ?_, ?_⟩
  · rw [hsealed, hpublic, hpruned]
    rfl
  · have herror : workResult (fullHost n).prims ⟨fullDraft n, hsize⟩ = .error .outputOversize :=
      dif_neg hlong
    simp [deliver, herror]

end Jamswap.Builder
