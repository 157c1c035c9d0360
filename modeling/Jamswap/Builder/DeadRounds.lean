import Jamswap.Builder.Poison
import Jamswap.Builder.Registration

/-!
# Dead rounds

While a round is in flight the builder asks on every sweep whether it can still settle
(`_round_dead`), and judges from summaries: the hash of the book, the entries it consumes, the
smallest seq of each account. The service walks every binding and matches the entries as a multiset.

A round called dead is dead (`dead_round_refused`). The converse fails: the summaries leave out the
band of market orders, the committee of encrypted rounds, the registered keys and how often an entry
is consumed, and a round not called dead is accepted exactly when these hold
(`live_round_accepted_iff`).
-/

namespace Jamswap.Builder

open Library Engine Service Committee Prog

/-! ### Judging on a chain state -/

/-- What is judged of a round still holds. -/
structure Judged.Alive (H : Host) (st : Storage) (j : Judged) : Prop where
  book : commitment H.prims (st.getD (.book H.market)) = j.bookHash
  entries : ∀ e ∈ j.consumed, e ∈ setEntries (st.getD j.setKey)
  floors : ∀ p ∈ j.minseq, leValue (st.getD (.sq p.1)) < p.2.toNat

section Judge

variable (H : Host) (st : Storage)

theorem anyFloorPast_on (seqs : List (UInt32 × UInt64)) (n : ℕ) (s : State) :
    (anyFloorPast (H.on st) seqs n s).1 =
      some (seqs.any fun p ↦ decide (p.2.toNat ≤ leValue (st.getD (.sq p.1)))) := by
  induction seqs generalizing n s with
  | nil => rfl
  | cons p seqs ih =>
    obtain ⟨account, seq⟩ := p
    have hfloor : (seqFloor (H.on st) account n s).1 = some (leValue (st.getD (.sq account))) := rfl
    unfold anyFloorPast
    rw [bind_of_some _ hfloor]
    split_ifs with hpast
    · simp only [List.any_cons, hpast, decide_true, Bool.true_or]
      rfl
    · simp only [List.any_cons, hpast, decide_false, Bool.false_or]
      exact ih _ _

theorem floorsPast_on (fr : Round) (n : ℕ) (s : State) : ∃ why,
    (floorsPast (H.on st) fr n s).1 = some why ∧
      (why = none ↔ ∀ p ∈ fr.minseq, leValue (st.getD (.sq p.1)) < p.2.toNat) := by
  refine ⟨_, by rw [floorsPast, bind_of_some _ (anyFloorPast_on H st fr.minseq n s)]; rfl, ?_⟩
  simp

/-- On a chain state every round is judged, and found alive exactly when what is judged holds. -/
theorem roundDead_on (fr : Round) (n : ℕ) (s : State) : ∃ why,
    (roundDead (H.on st) fr n s).1 = some why ∧ (why = none ↔ fr.judged.Alive H st) := by
  have hbook : (storage (H.on st) (.book (H.on st).market) n s).1 =
      some (st.getD (.book H.market)) := rfl
  have hset : ∀ n s, (storage (H.on st) fr.setKey n s).1 = some (st.getD fr.setKey) := fun _ _ ↦ rfl
  unfold roundDead
  rw [bind_of_some _ hbook]
  split_ifs with hmoved hnone
  · refine ⟨_, rfl, fun hfalse ↦ (by cases hfalse), fun h ↦ absurd h.book hmoved⟩
  · obtain ⟨why, hwhy, hiff⟩ := floorsPast_on H st fr _ _
    refine ⟨why, hwhy, hiff.trans
      ⟨fun hfloors ↦ ⟨not_not.mp hmoved, ?_, hfloors⟩, fun h ↦ h.floors⟩⟩
    intro e he
    rw [show fr.judged.consumed = [] from hnone] at he
    cases he
  · rw [bind_of_some _ (hset _ _)]
    split_ifs with hgone
    · refine ⟨_, rfl, fun hfalse ↦ (by cases hfalse), fun h ↦ ?_⟩
      obtain ⟨e, he, hmissing⟩ := List.any_eq_true.mp hgone
      exact absurd (h.entries e he) (of_decide_eq_true hmissing)
    · obtain ⟨why, hwhy, hiff⟩ := floorsPast_on H st fr _ _
      refine ⟨why, hwhy, hiff.trans
        ⟨fun hfloors ↦ ⟨not_not.mp hmoved, ?_, hfloors⟩, fun h ↦ h.floors⟩⟩
      intro e he
      by_contra hmissing
      exact hgone (List.any_eq_true.mpr ⟨e, he, decide_eq_true hmissing⟩)

end Judge

/-! ### The smallest seqs -/

variable {minseq : List (UInt32 × UInt64)} {p : UInt32 × UInt64}

section Minseq

theorem min_seq (a b : UInt64) : min a b = a ∧ a ≤ b ∨ min a b = b ∧ b ≤ a := by
  by_cases h : a ≤ b
  · exact Or.inl ⟨if_pos h, h⟩
  · exact Or.inr ⟨if_neg h, UInt64.le_of_lt (UInt64.not_le.mp h)⟩

theorem min_seq_le (a b : UInt64) : min a b ≤ a ∧ min a b ≤ b := by
  rcases min_seq a b with ⟨hmin, hle⟩ | ⟨hmin, hle⟩
  · rw [hmin]
    exact ⟨UInt64.le_refl a, hle⟩
  · rw [hmin]
    exact ⟨hle, UInt64.le_refl b⟩

theorem mem_noteSeq {o : Order} (hp : p ∈ noteSeq minseq o) :
    p ∈ minseq ∨ p = (o.account, o.seq) := by
  induction minseq with
  | nil => exact Or.inr (List.mem_singleton.mp hp)
  | cons q rest ih =>
    obtain ⟨account, seq⟩ := q
    unfold noteSeq at hp
    split_ifs at hp with haccount
    · rcases List.mem_cons.mp hp with rfl | hp
      · rcases min_seq seq o.seq with ⟨hmin, -⟩ | ⟨hmin, -⟩
        · exact Or.inl (by rw [hmin]; exact List.mem_cons_self)
        · exact Or.inr (by rw [hmin, haccount])
      · exact Or.inl (List.mem_cons_of_mem _ hp)
    · rcases List.mem_cons.mp hp with rfl | hp
      · exact Or.inl List.mem_cons_self
      · exact (ih hp).imp_left (List.mem_cons_of_mem _)

/-- Every recorded seq is that of an order. -/
theorem mem_minseq {orders : List Order} (hp : p ∈ orders.foldl noteSeq minseq) :
    p ∈ minseq ∨ ∃ o ∈ orders, p = (o.account, o.seq) := by
  induction orders generalizing minseq with
  | nil => exact Or.inl hp
  | cons o orders ih =>
    rcases ih hp with hp | ⟨o', ho', rfl⟩
    · exact (mem_noteSeq hp).imp_right fun heq ↦ ⟨o, List.mem_cons_self, heq⟩
    · exact Or.inr ⟨o', List.mem_cons_of_mem o ho', rfl⟩

/-- A recorded seq only falls. -/
theorem noteSeq_le (o : Order) (hp : p ∈ minseq) : ∃ seq ≤ p.2, (p.1, seq) ∈ noteSeq minseq o := by
  induction minseq with
  | nil => cases hp
  | cons q rest ih =>
    obtain ⟨account, seq⟩ := q
    unfold noteSeq
    rcases List.mem_cons.mp hp with rfl | hp
    · split_ifs
      · exact ⟨_, (min_seq_le _ _).1, List.mem_cons_self⟩
      · exact ⟨_, UInt64.le_refl _, List.mem_cons_self⟩
    · split_ifs
      · exact ⟨_, UInt64.le_refl _, List.mem_cons_of_mem _ hp⟩
      · obtain ⟨seq', hle, hmem⟩ := ih hp
        exact ⟨seq', hle, List.mem_cons_of_mem _ hmem⟩

theorem noteSeq_self (minseq : List (UInt32 × UInt64)) (o : Order) :
    ∃ seq ≤ o.seq, (o.account, seq) ∈ noteSeq minseq o := by
  induction minseq with
  | nil => exact ⟨_, UInt64.le_refl _, List.mem_cons_self⟩
  | cons q rest ih =>
    obtain ⟨account, seq⟩ := q
    unfold noteSeq
    split_ifs with haccount
    · exact ⟨_, (min_seq_le _ _).2, by rw [haccount]; exact List.mem_cons_self⟩
    · obtain ⟨seq', hle, hmem⟩ := ih
      exact ⟨seq', hle, List.mem_cons_of_mem _ hmem⟩

theorem foldl_noteSeq_le (orders : List Order) (hp : p ∈ minseq) :
    ∃ seq ≤ p.2, (p.1, seq) ∈ orders.foldl noteSeq minseq := by
  induction orders generalizing minseq p with
  | nil => exact ⟨p.2, UInt64.le_refl _, hp⟩
  | cons o orders ih =>
    obtain ⟨seq, hle, hmem⟩ := noteSeq_le o hp
    obtain ⟨seq', hle', hmem'⟩ := ih hmem
    exact ⟨seq', UInt64.le_trans hle' hle, hmem'⟩

/-- The recorded seqs bound those of every order from below. -/
theorem minseq_le {orders : List Order} (minseq : List (UInt32 × UInt64)) {o : Order}
    (ho : o ∈ orders) : ∃ seq ≤ o.seq, (o.account, seq) ∈ orders.foldl noteSeq minseq := by
  induction orders generalizing minseq with
  | nil => cases ho
  | cons x orders ih =>
    rcases List.mem_cons.mp ho with rfl | ho
    · obtain ⟨seq, hle, hmem⟩ := noteSeq_self minseq o
      obtain ⟨seq', hle', hmem'⟩ := foldl_noteSeq_le orders hmem
      exact ⟨seq', UInt64.le_trans hle' hle, hmem'⟩
    · exact ih _ ho

end Minseq

/-! ### What is judged of a draft -/

section Draft

variable {H : Host} {S : ScalarOps H.prims.curve} {Read : Key → Bytes → Prop} {pool : List Order}
  {raw payload : Bytes} {rec : Round} {st : Storage}

theorem judged_of_draft (d : Draft H Read pool raw rec payload) : rec.judged =
    ⟨roundId H.prims payload, commitment H.prims raw,
      rec.sealedOrders.map H.consumedEntry, H.setKey,
      rec.publicOrders.foldl noteSeq []⟩ :=
  congrArg Round.judged d.record

theorem setKey_of_sealed (hsome : rec.sealedOrders ≠ []) :
    (H.draftInput rec raw).kind.tag.setKey H.market = some H.setKey := by
  unfold Host.draftInput Host.roundKind Host.setKey
  simp only [if_neg hsome]
  split_ifs <;> rfl

/-- An acceptable draft is alive. -/
theorem alive_of_acceptable (d : Draft H Read pool raw rec payload) (hwords : StoredWords st)
    (h : (H.draftInput rec raw).Acceptable H.prims st) : rec.judged.Alive H st := by
  rw [judged_of_draft d]
  refine ⟨h.book, fun e he ↦ ?_, fun p hp ↦ ?_⟩
  · have hsome : rec.sealedOrders ≠ [] := by
      intro hnone
      rw [hnone] at he
      cases he
    have hentries := h.entries _ (setKey_of_sealed hsome)
    rw [records_consumed_draftInput] at hentries
    exact hentries.subset he
  · obtain ⟨o, ho, rfl⟩ := (mem_minseq hp).resolve_left (by simp)
    have habove := h.above o.binding (by
      rw [bindings_draftInput]
      exact List.mem_map_of_mem ho)
    rw [UInt64.lt_iff_toNat_lt, toNat_getU64 hwords (Or.inl ⟨_, rfl⟩)] at habove
    exact habove

end Draft

/-! ### Registered rounds -/

section Registered

variable {H : Host} {S : ScalarOps H.prims.curve} {actions : List Action} {rec : Round}
  {payload : WorkPayload} {st : Storage} {slot : UInt32}

/-- What accumulate reads of a registered round it accepts is the round. -/
theorem Registered.input_of_accepted (h : Registered H actions rec payload.val)
    (hsidecar : H.encMode = true → RunsSidecar H S ∧ Decrypts H.prims S)
    (haccepted : (deliver H.prims st ⟨slot, payload⟩).2 = .accepted) :
    ∃ pool raw, Draft H H.Answered pool raw rec payload.val ∧
      roundInput H.prims payload.val = some (H.draftInput rec raw) := by
  obtain ⟨pool, raw, d, hpool⟩ := draft_of_registered h
  have hmade : WellMade H S rec :=
    d.wellMade (fun o ho ↦ (hpool o ho).sig) (fun o ho ↦ (hpool o ho).hidden) hsidecar
  obtain ⟨tag, htag, hround⟩ := d.tagged fun hmode ↦ (hsidecar hmode).1
  obtain ⟨inp, floors, mid, hdelivery⟩ :=
    roundDelivery_of_accepted htag hround (Prod.ext rfl haccepted)
  obtain rfl := d.input_eq hmade (fun hmode ↦ d.sealed_lt hmade hmode payload.property)
    hdelivery.input
  exact ⟨pool, raw, d, hdelivery.input⟩

end Registered

/-- A round called dead is refused: whatever reason `roundDead` gives on a chain state, the service
refuses the round there. -/
theorem dead_round_refused {H : Host} (S : ScalarOps H.prims.curve)
    (hsidecar : H.encMode = true → RunsSidecar H S ∧ Decrypts H.prims S) {actions : List Action}
    {rec : Round} (payload : WorkPayload) (hregistered : Registered H actions rec payload.val)
    {st : Storage} (hwords : StoredWords st) {fr : Round} (hfr : fr.judged = rec.judged) {n : ℕ}
    {s : State} {why : Release} (hdead : (roundDead (H.on st) fr n s).1 = some (some why))
    (slot : UInt32) : (deliver H.prims st ⟨slot, payload⟩).2 = .refused := by
  cases hverdict : (deliver H.prims st ⟨slot, payload⟩).2 with
  | refused => rfl
  | accepted =>
    obtain ⟨pool, raw, d, hinput⟩ := hregistered.input_of_accepted hsidecar hverdict
    have halive := alive_of_acceptable d hwords ((deliver_accepted_iff hinput).mp hverdict).2
    obtain ⟨why', hwhy, hiff⟩ := roundDead_on H st fr n s
    rw [← hfr, ← hiff] at halive
    rw [hdead, halive] at hwhy
    cases hwhy

/-! ### A market order on a quoted market -/

def registerItem (slot : UInt32) (key : UInt8) : WorkItem :=
  ⟨slot, ⟨[Tag.register.byte] ++ List.replicate 32 key ++ List.replicate 64 0, by simp [maxInput]⟩⟩

def traderKey (key : UInt8) : Bytes32 := FixedBytes.ofBytes 32 (List.replicate 32 key)

/-- Account 1 sells one unit to account 2. -/
def crossAt (price : UInt32) (seq : UInt64) : List SignedOrder :=
  [⟨⟨1, 10, .sell, price, 1⟩, 0, price, seq, traderKey 1, FixedBytes.ofBytes 64 []⟩,
    ⟨⟨2, 11, .buy, price, 1⟩, 0, price, seq, traderKey 2, FixedBytes.ofBytes 64 []⟩]

def crossItem (slot price : UInt32) (seq : UInt64) : WorkItem :=
  ⟨slot, ⟨smatchPayload 1 1 0 (Service.publicSectionBytes (crossAt price seq) [] []), by
    simp [smatchPayload, Service.publicSectionBytes, length_matchHeader, length_encodeSignedOrders,
      crossAt, signedOrderLen, orderLen, maxInput]⟩⟩

/-- List market 1, register accounts 1 to 3 and let the first two trade at price 5. -/
def quotingItems : List WorkItem :=
  [⟨1, ⟨[Tag.list.byte] ++ u32Bytes 1 ++ u32Bytes 1 ++ u32Bytes 0, by decide +kernel⟩⟩,
    registerItem 2 1, registerItem 3 2, registerItem 4 3, crossItem 5 5 1]

def quotedStorage : Storage := runItems Primitives.toy Store.empty quotingItems

def quotedHost : Host := (sampleHost (fun _ ↦ 0) fun _ ↦ false).on quotedStorage

def marketBuy : Request :=
  { account := 3
    oid := 12
    side := .buy
    price := 5
    qty := 2
    otype := .market
    seq := 1
    sig := List.replicate 64 0
    pubkey := traderKey 3 }

def placedBuy : ℕ × State := step quotedHost (0, {}) (.place marketBuy)

/-- The round a build makes of the market order. -/
def preparedBuy : Option (Round × Bytes) :=
  (prepareRound quotedHost placedBuy.1 placedBuy.2).1.bind Sum.getRight?

theorem preparedBuy_isSome : preparedBuy.isSome = true := by decide +kernel

def boughtRound : Round := (preparedBuy.get preparedBuy_isSome).1

def boughtPayload : WorkPayload := ⟨(preparedBuy.get preparedBuy_isSome).2, by decide +kernel⟩

theorem registered_bought :
    Registered quotedHost [.place marketBuy, .build] boughtRound boughtPayload.val := by
  have hprepared : preparedBuy = some (boughtRound, boughtPayload.val) := by
    simp only [boughtRound, boughtPayload, Prod.mk.eta, Option.some_get]
  unfold preparedBuy at hprepared
  obtain ⟨made, hmade, hright⟩ := Option.bind_eq_some_iff.mp hprepared
  rw [Sum.getRight?_eq_some_iff] at hright
  refine ⟨[.place marketBuy], [], rfl, ?_⟩
  show (prepareRound quotedHost placedBuy.1 placedBuy.2).1 = _
  rw [hmade, hright]

theorem storedWords_quoted : StoredWords quotedStorage :=
  storedWords_runItems _ storedWords_empty _

/-- The market order after somebody else's limit order has come to rest. -/
theorem dead_round_refused_bought :
    let st := Storage.set quotedStorage (.book 1) (encodeOrders [⟨1, 13, .sell, 9, 1⟩])
    (roundDead (quotedHost.on st) boughtRound 0 {}).1 = some (some .bookMoved) ∧
      (deliver Primitives.toy st ⟨9, boughtPayload⟩).2 = .refused := by
  have hdead : (roundDead (quotedHost.on (Storage.set quotedStorage (.book 1)
      (encodeOrders [⟨1, 13, .sell, 9, 1⟩]))) boughtRound 0 {}).1 = some (some .bookMoved) := by
    decide +kernel
  refine ⟨hdead, ?_⟩
  exact dead_round_refused toyScalars (fun hmode ↦ by cases hmode) boughtPayload registered_bought
    (storedWords_quoted.set_other (by simp [wordKeys]) _) rfl hdead 9

/-! ### What is not judged -/

/-- What accumulate checks of a round and `_round_dead` does not look at. -/
structure Round.Upheld (H : Host) (st : Storage) (rec : Round) : Prop where
  keys : ∀ o ∈ rec.publicOrders, pubkeyOf st o.account = some o.pubkey
  banded : ∀ o ∈ rec.publicOrders, o.otype = .market →
    withinBand (UInt32.ofNat o.price) (getU64 st (.lp H.market)) marketBandPct = true
  committee : H.encMode = true → rec.sealedOrders ≠ [] → st.getD .committee ≠ [] ∧
    committeeHash H.prims (st.getD .committee) = committeeHash H.prims (fixedBlob H.prims)
  entries : (rec.sealedOrders.map H.consumedEntry).Subperm (setEntries (st.getD H.setKey))

section Upheld

variable {H : Host} {Read : Key → Bytes → Prop} {pool : List Order} {raw payload : Bytes}
  {rec : Round} {st st' : Storage}

theorem upheld_of_acceptable (h : (H.draftInput rec raw).Acceptable H.prims st) :
    rec.Upheld H st := by
  have hbinding : ∀ o ∈ rec.publicOrders, o.binding ∈ (H.draftInput rec raw).ps.bindings := by
    intro o ho
    rw [bindings_draftInput]
    exact List.mem_map_of_mem ho
  constructor
  · intro o ho
    exact h.registered _ (hbinding o ho)
  · intro o ho hmarket
    apply h.banded _ (hbinding o ho)
    show hasFlag o.flags flagMarket = true
    rw [hasFlag_flags, hmarket]
    rfl
  · intro hmode hsome
    have htag := (encRound_draftInput_iff H rec raw).mpr ⟨hmode, hsome⟩
    obtain ⟨hset, hhash⟩ := h.committee htag
    rw [committeeHash_draftInput htag, Option.some_inj] at hhash
    exact ⟨hset, Subtype.ext hhash.symm⟩
  · by_cases hsome : rec.sealedOrders = []
    · rw [hsome]
      exact List.nil_subperm
    · have hentries := h.entries _ (setKey_of_sealed hsome)
      rw [records_consumed_draftInput] at hentries
      exact hentries

/-- What was acceptable still is where it is alive and upheld, on the same listing and book. -/
theorem acceptable_of_alive (d : Draft H Read pool raw rec payload)
    (hold : (H.draftInput rec raw).Acceptable H.prims st) (hwords : StoredWords st')
    (hlisted : marketAssets st' H.market = some (H.base, H.quote))
    (hbook : st'.getD (.book H.market) = st.getD (.book H.market))
    (halive : rec.judged.Alive H st') (hupheld : rec.Upheld H st') :
    (H.draftInput rec raw).Acceptable H.prims st' := by
  rw [judged_of_draft d] at halive
  have hbinding : ∀ {motive : Binding → Prop}, (∀ o ∈ rec.publicOrders, motive o.binding) →
      ∀ b ∈ (H.draftInput rec raw).ps.bindings, motive b := by
    intro motive heach b hb
    rw [bindings_draftInput] at hb
    obtain ⟨o, ho, rfl⟩ := List.mem_map.mp hb
    exact heach o ho
  constructor
  · exact hlisted
  · intro hnone hconsumed
    show st'.getD (.book H.market) ≠ _
    rw [hbook]
    exact hold.effective hnone hconsumed
  · intro htag
    obtain ⟨hmode, hsome⟩ := (encRound_draftInput_iff H rec raw).mp htag
    obtain ⟨hset, hhash⟩ := hupheld.committee hmode hsome
    rw [committeeHash_draftInput htag, hhash]
    exact ⟨hset, rfl⟩
  · exact halive.book
  · exact hbinding hupheld.keys
  · refine hbinding fun o ho hmarket ↦ hupheld.banded o ho ?_
    have hflag : hasFlag o.flags flagMarket = true := hmarket
    rw [hasFlag_flags] at hflag
    exact of_decide_eq_true hflag
  · refine hbinding fun o ho ↦ ?_
    -- the floor is below the smallest seq of the account
    obtain ⟨seq, hle, hmem⟩ := minseq_le [] ho
    have hfloor := halive.floors _ hmem
    rw [← toNat_getU64 hwords (Or.inl ⟨_, rfl⟩)] at hfloor
    exact UInt64.lt_of_lt_of_le (UInt64.lt_iff_toNat_lt.mpr hfloor) hle
  · exact hold.increasing
  · intro key hkey
    rw [setKey_draftInput H rec raw hkey, records_consumed_draftInput]
    exact hupheld.entries

end Upheld

/-- A round that was acceptable and is not called dead on a later chain state is accepted there
exactly when what `roundDead` does not look at is upheld. -/
theorem live_round_accepted_iff {H : Host} (S : ScalarOps H.prims.curve)
    (hsidecar : H.encMode = true → RunsSidecar H S ∧ Decrypts H.prims S) {actions : List Action}
    {rec : Round} (payload : WorkPayload) (hregistered : Registered H actions rec payload.val)
    {st : Storage} (hwords : StoredWords st) {slot : UInt32}
    (haccepted : (deliver H.prims st ⟨slot, payload⟩).2 = .accepted) (items : List WorkItem)
    (hhash : commitment H.prims ((runItems H.prims st items).getD (.book H.market)) =
        commitment H.prims (st.getD (.book H.market)) →
      (runItems H.prims st items).getD (.book H.market) = st.getD (.book H.market))
    {fr : Round} (hfr : fr.judged = rec.judged) {n : ℕ} {s : State}
    (hlive : (roundDead (H.on (runItems H.prims st items)) fr n s).1 = some none) (slot' : UInt32) :
    (deliver H.prims (runItems H.prims st items) ⟨slot', payload⟩).2 = .accepted ↔
      rec.Upheld H (runItems H.prims st items) := by
  obtain ⟨pool, raw, d, hinput⟩ := hregistered.input_of_accepted hsidecar haccepted
  obtain ⟨hsize, hold⟩ := (deliver_accepted_iff hinput).mp haccepted
  have halive : rec.judged.Alive H (runItems H.prims st items) := by
    obtain ⟨why, hwhy, hiff⟩ := roundDead_on H (runItems H.prims st items) fr n s
    rw [hlive, Option.some_inj] at hwhy
    rw [← hfr]
    exact hiff.mp hwhy.symm
  have hbook : (runItems H.prims st items).getD (.book H.market) = st.getD (.book H.market) := by
    apply hhash
    rw [halive.book, judged_of_draft d]
    exact hold.book.symm
  rw [deliver_accepted_iff hinput]
  constructor
  · intro h
    exact upheld_of_acceptable h.2
  · intro hupheld
    exact ⟨hsize, acceptable_of_alive d hold (storedWords_runItems _ hwords items)
      (marketAssets_runItems _ hold.listed items) hbook halive hupheld⟩

/-- Accounts 1 and 2 trade once more. -/
def requoted (price : UInt32) : Storage :=
  runItems Primitives.toy quotedStorage [crossItem 6 price 2]

/-- What the chain and the builder make of the round, evaluated together: before the second trade,
after it, and after a second trade at ten times the price. -/
theorem boughtRound_evaluated :
    (boughtRound.sealedOrders = [] ∧
      (deliver Primitives.toy quotedStorage ⟨6, boughtPayload⟩).2 = .accepted) ∧
    ((roundDead (quotedHost.on (requoted 5)) boughtRound 0 {}).1 = some none ∧
      (∀ o ∈ boughtRound.publicOrders, pubkeyOf (requoted 5) o.account = some o.pubkey) ∧
      ∀ o ∈ boughtRound.publicOrders, o.otype = .market →
        withinBand (UInt32.ofNat o.price) (getU64 (requoted 5) (.lp quotedHost.market))
          marketBandPct = true) ∧
    Service.landedSlot (requoted 50) (roundId Primitives.toy boughtPayload.val) = none ∧
      (roundDead (quotedHost.on (requoted 50)) boughtRound 0 {}).1 = some none ∧
      (deliver Primitives.toy (requoted 50) ⟨9, boughtPayload⟩).2 = .refused := by
  decide +kernel

/-- At the old price the market order can still land. -/
theorem live_round_accepted_iff_requoted :
    (roundDead (quotedHost.on (requoted 5)) boughtRound 0 {}).1 = some none ∧
      boughtRound.Upheld quotedHost (requoted 5) ∧
      (deliver Primitives.toy (requoted 5) ⟨9, boughtPayload⟩).2 = .accepted := by
  obtain ⟨⟨hopen, haccepted⟩, ⟨hlive, hkeys, hbanded⟩, -⟩ := boughtRound_evaluated
  have hupheld : boughtRound.Upheld quotedHost (requoted 5) := by
    refine ⟨hkeys, hbanded, fun hmode ↦ (by cases hmode), ?_⟩
    rw [hopen]
    exact List.nil_subperm
  refine ⟨hlive, hupheld, ?_⟩
  exact (live_round_accepted_iff toyScalars (fun hmode ↦ by cases hmode) boughtPayload
    registered_bought storedWords_quoted haccepted [crossItem 6 5 2] (fun _ ↦ by decide +kernel) rfl
    hlive 9).mpr hupheld

/-- At ten times the price the market order is out of the band and refused, and the builder does not
see it: book, entries and floors of the order are as they were. -/
theorem live_round_refused_requoted :
    Registered quotedHost [.place marketBuy, .build] boughtRound boughtPayload.val ∧
      (deliver Primitives.toy quotedStorage ⟨6, boughtPayload⟩).2 = .accepted ∧
      Service.landedSlot (requoted 50) (roundId Primitives.toy boughtPayload.val) = none ∧
      (roundDead (quotedHost.on (requoted 50)) boughtRound 0 {}).1 = some none ∧
      (deliver Primitives.toy (requoted 50) ⟨9, boughtPayload⟩).2 = .refused := by
  obtain ⟨⟨-, haccepted⟩, -, hrefused⟩ := boughtRound_evaluated
  exact ⟨registered_bought, haccepted, hrefused⟩

end Jamswap.Builder
