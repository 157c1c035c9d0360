import Jamswap.Service.ItemSteps
import Jamswap.Service.SignedOps

/-!
# A work item from payload to storage

Refine sees only the payload, accumulate only the output. Here the two are joined: what a payload
that refine accepts as a round contains (`PublicSpec`, `OpenedSpec`, `roundInput_spec`), that an
output keeps its payload's tag (`tagOf_refine`), and that an accepted round item is one whose
payload refine parsed and whose sections accumulate then checked and applied
(`roundDelivery_of_accepted`). `deliver_cases` is the resulting case analysis for one item of a run.
-/

namespace Jamswap.Service

open Library Engine Storage

/-! ### What a parsed payload contains -/

/-- The signed order is a record of the payload. -/
def SentIn (data : Bytes) (s : SignedOrder) : Prop :=
  ∃ r, r.length = signedOrderLen ∧ r <:+: data ∧ decodeSignedOrder r = s

/-- The public section of a round: new orders and bindings come one by one from signed orders in the
payload that verify for this market, the book from the raw book bytes minus the pruned entries. -/
structure PublicSpec (P : Primitives) (data : Bytes) (market : UInt32) (ps : PublicSection)
    (bookBytes : Bytes) : Prop where
  admits : ∀ a ∈ ps.admitted, ∃ s, SentIn data s ∧ admitSigned P market s = some a
  book : ∃ pruned, ps.book = (decodeOrders bookBytes).filter fun o ↦ !isPruned pruned o
  hash : ps.bookHash = commitment P bookBytes
  range : bookBytes <:+: data
  size : ps.admitted.length ≤ data.length
  count : ps.admitted.length < 2 ^ 16

theorem length_decodeSignedOrders_le (data : Bytes) :
    (decodeSignedOrders data).length ≤ data.length := by
  calc (decodeSignedOrders data).length ≤ (records signedOrderLen data).length :=
        List.length_filterMap_le _ _
    _ = data.length / signedOrderLen := length_records _ _
    _ ≤ data.length := Nat.div_le_self _ _

variable {P : Primitives} {data out : Bytes} {r inp : RoundInput} {tag : Tag} {off : ℕ}
  {o : Opened} {payload : WorkPayload} {st st' : Storage}
  {item : WorkItem}

theorem parsePublicSection_spec {market : UInt32} {ps : PublicSection}
    (h : parsePublicSection P data off market = some ps) :
    ∃ bookBytes, PublicSpec P data market ps bookBytes := by
  unfold parsePublicSection at h
  simp only [Option.bind_eq_bind, Option.bind_eq_some_iff] at h
  obtain ⟨ns, -, sblob, hsblob, h⟩ := h
  split_ifs at h with hcount
  simp only [Option.bind_eq_some_iff] at h
  obtain ⟨admitted, hadmitted, np, -, pruned, -, bookBytes, hbook, hps⟩ := h
  cases hps
  obtain ⟨hlength, hsigned⟩ := spec_of_mapM hadmitted
  refine ⟨bookBytes, ?_, ⟨pruned, rfl⟩, rfl, ?_, ?_, ?_⟩
  · intro a ha
    obtain ⟨s, hmem, hs⟩ := hsigned a ha
    rw [decodeSignedOrders_eq] at hmem
    obtain ⟨r, hr, rfl⟩ := List.mem_map.mp hmem
    obtain ⟨-, -, rfl⟩ := sub?_eq_some_iff.mp hsblob
    exact ⟨_, ⟨r, length_of_mem_records hr, (isInfix_of_mem_records hr).trans (isInfix_slice _ _ _),
      rfl⟩, hs⟩
  · obtain ⟨-, rfl⟩ := suffix?_eq_some_iff.mp hbook
    exact (List.drop_suffix _ _).isInfix
  · obtain ⟨-, -, rfl⟩ := sub?_eq_some_iff.mp hsblob
    calc admitted.length = (decodeSignedOrders _).length := hlength
      _ ≤ (slice data _ _).length := length_decodeSignedOrders_le _
      _ ≤ data.length := length_slice_le _ _ _
  · rw [hlength, not_not.mp hcount]
    exact (u16At ns 0).toNat_lt

/-- What an opened sealed order rests on: a reveal whose hash heads its entry, or a ciphertext
whose decryption every committee member has proven. -/
inductive OpenedSpec (P : Primitives) : RoundKind → Opened → Prop
  | reveal (opened : List Opened) (bytes : Bytes) (hlen : bytes.length = revealLen) :
      OpenedSpec P (.reveal opened)
        ⟨decodeOrder (slice bytes 0 orderLen),
          (commitment P bytes).val ++ u32Bytes (decodeOrder (slice bytes 0 orderLen)).account⟩
  | decrypted (opened : List Opened) (committee c1 body partials plain : Bytes) (o : Order)
      (hplain : verifyAndDecrypt P c1 body (committeeKeys committee) partials = some plain)
      (horder : (decodeOrders plain).head? = some o) :
      OpenedSpec P (.encRound committee opened)
        ⟨o, (commitment P (c1 ++ body)).val ++ u32Bytes o.account⟩

theorem OpenedSpec.entry_length {kind : RoundKind} (h : OpenedSpec P kind o) :
    o.entry.length = setEntryLen := by
  cases h <;> simp [setEntryLen, Carry.entryLen]

theorem admitReveal_spec {commits bytes : Bytes} (hlen : bytes.length = revealLen)
    (h : admitReveal P commits bytes = some o) (opened : List Opened) :
    OpenedSpec P (.reveal opened) o := by
  simp only [admitReveal] at h
  split_ifs at h with hcommitted
  have horders : decodeOrders (slice bytes 0 orderLen) =
      [decodeOrder (slice bytes 0 orderLen)] := by
    have hslice : (slice bytes 0 orderLen).length = orderLen := by
      rw [length_slice _ _ _ (by rw [hlen]; decide)]
      rfl
    rw [decodeOrders, ← List.append_nil (slice bytes 0 orderLen),
      records_append (by decide) hslice, records_nil, List.append_nil]
    rfl
  rw [horders] at h
  cases h
  exact OpenedSpec.reveal opened bytes hlen

theorem length_parseCiphertexts {m : ℕ} {parsed : List (Bytes × Bytes) × ℕ}
    (h : parseCiphertexts data m off = some parsed) : parsed.1.length = m := by
  induction m generalizing off parsed with
  | zero =>
    cases h
    rfl
  | succ m ih =>
    rw [parseCiphertexts] at h
    simp only [Option.bind_eq_bind, Option.bind_eq_some_iff] at h
    obtain ⟨c1, -, len, -, body, -, rest, hrest, hparsed⟩ := h
    cases hparsed
    rw [List.length_cons, ih hrest]

/-- A payload refine accepts as a round: its tag is the round's, its public section and its opened
orders are what they should be, and it holds far fewer orders than a 32-bit count can. -/
structure RoundSpec (P : Primitives) (data : Bytes) (r : RoundInput) : Prop where
  tagged : tagOf data = some r.kind.tag
  market : r.market = u32At data 1
  publicSection : ∃ bookBytes, PublicSpec P data r.market r.ps bookBytes
  opened : ∀ o ∈ r.kind.opened, OpenedSpec P r.kind o
  committee : ∀ committee opened, r.kind = .encRound committee opened → committee <:+: data
  count : r.kind.opened.length ≤ data.length + 2 ^ 16

theorem smatchInput_spec (htag : tagOf data = some .smatch) (h : smatchInput P data = some r) :
    RoundSpec P data r := by
  unfold smatchInput at h
  split_ifs at h
  obtain ⟨ps, hps, hr⟩ := Option.bind_eq_some_iff.mp h
  cases hr
  exact ⟨htag, rfl, parsePublicSection_spec hps, nofun, nofun, Nat.zero_le _⟩

theorem revealInput_spec (htag : tagOf data = some .reveal) (h : revealInput P data = some r) :
    RoundSpec P data r := by
  simp only [revealInput] at h
  split_ifs at h
  obtain ⟨ps, hps, hr⟩ := Option.bind_eq_some_iff.mp h
  cases hr
  refine ⟨htag, rfl, parsePublicSection_spec hps, ?_, nofun, ?_⟩
  · intro o ho
    obtain ⟨bytes, hbytes, hadmit⟩ := List.mem_filterMap.mp ho
    exact admitReveal_spec (length_of_mem_records hbytes) hadmit _
  · refine (List.length_filterMap_le _ _).trans ?_
    rw [length_records]
    exact ((Nat.div_le_self _ _).trans (length_slice_le _ _ _)).trans (Nat.le_add_right _ _)

theorem encRoundInput_spec {P : Primitives} {data : Bytes} {r : RoundInput}
    (htag : tagOf data = some .encRound) (h : encRoundInput P data = some r) :
    RoundSpec P data r := by
  unfold encRoundInput at h
  simp only [Option.bind_eq_bind, Option.bind_eq_some_iff] at h
  obtain ⟨n, hn, h⟩ := h
  split_ifs at h with hzero
  simp only [Option.bind_eq_some_iff] at h
  obtain ⟨pksBlob, hpks, mBytes, -, parsed, hparsed, partials, -, ps, hps, opened, hopened, hr⟩ := h
  cases hr
  obtain ⟨hlength, hdecrypted⟩ := spec_of_mapM hopened
  refine ⟨htag, rfl, parsePublicSection_spec hps, ?_, ?_, ?_⟩
  · intro o ho
    obtain ⟨ciphertext, -, hadmit⟩ := hdecrypted o ho
    simp only [admitCiphertext, Option.bind_eq_bind, Option.bind_eq_some_iff] at hadmit
    obtain ⟨plain, hplain, order, horder, hopened⟩ := hadmit
    cases hopened
    exact OpenedSpec.decrypted _ _ _ _ _ plain order hplain horder
  · rintro committee opened' ⟨⟩
    obtain ⟨-, hend, rfl⟩ := sub?_eq_some_iff.mp hpks
    have hblob : UInt8.ofNat n.toNat :: slice data 14 (14 + n.toNat * pointLen) =
        slice data 13 (14 + n.toNat * pointLen) := by
      obtain ⟨hlt, hget⟩ := List.getElem?_eq_some_iff.mp hn
      have hwidth : 14 + n.toNat * pointLen - 13 = n.toNat * pointLen + 1 := by omega
      rw [UInt8.ofNat_toNat, slice, slice, List.drop_eq_getElem_cons hlt, hget, hwidth,
        List.take_succ_cons]
      congr 2
      omega
    rw [hblob]
    exact isInfix_slice _ _ _
  · have hm := (u16At mBytes 0).toNat_lt
    have hzip : opened.length ≤ parsed.1.length := by
      rw [hlength, List.length_zip]
      exact Nat.min_le_left _ _
    rw [length_parseCiphertexts hparsed] at hzip
    change opened.length ≤ _
    omega

theorem roundInput_spec (h : roundInput P data = some r) : RoundSpec P data r := by
  unfold roundInput at h
  cases htag : data.head?.bind Tag.ofByte with
  | none =>
    rw [htag] at h
    cases h
  | some tag =>
    rw [htag] at h
    cases tag with
    | smatch => exact smatchInput_spec htag h
    | reveal => exact revealInput_spec htag h
    | encRound => exact encRoundInput_spec htag h
    | _ => cases h

theorem RoundSpec.records_consumed (h : RoundSpec P data inp) :
    records setEntryLen inp.consumed = inp.kind.opened.map Opened.entry :=
  records_flatMap_of_mem (by decide) Opened.entry fun o ho ↦ (h.opened o ho).entry_length

/-- A payload holds not many more orders than bytes. -/
theorem RoundSpec.orders_length_le (h : RoundSpec P data r) :
    r.orders.length ≤ 3 * data.length + 2 ^ 16 := by
  obtain ⟨bookBytes, hps⟩ := h.publicSection
  obtain ⟨pruned, hbook⟩ := hps.book
  have hbookLen : r.ps.book.length ≤ data.length := by
    rw [hbook]
    refine (List.length_filter_le _ _).trans ?_
    rw [length_decodeOrders]
    exact (Nat.div_le_self _ _).trans hps.range.length_le
  have hcount := h.count
  have hadmitted := hps.size
  rw [RoundInput.orders, RoundInput.publicOrders, RoundInput.sealedOrders, PublicSection.newOrders,
    List.length_append, List.length_append, List.length_map, List.length_map]
  omega

/-- A payload within the platform's bound holds fewer than `2 ^ 32` orders. -/
theorem RoundSpec.orders_length_lt (h : RoundSpec P data r) (hsize : data.length ≤ maxInput) :
    r.orders.length < 2 ^ 32 := by
  have hle := h.orders_length_le
  simp only [maxInput] at hsize
  omega

/-! ### From payload to output -/

theorem refine_of_roundInput (h : roundInput P data = some r) :
    refine P data = r.output P (roundId P data) := by
  have htag : data.head?.bind Tag.ofByte = some r.kind.tag := (roundInput_spec h).tagged
  unfold refine
  rw [htag]
  cases hkind : r.kind <;> simp only [RoundKind.tag, h]

theorem refine_of_roundInput_none (htag : tagOf data = some tag) (hround : tag.isRound)
    (h : roundInput P data = none) : refine P data = [] := by
  have htag' : data.head?.bind Tag.ofByte = some tag := htag
  unfold refine
  rw [htag']
  cases tag with
  | smatch | reveal | encRound => simp only [h]
  | _ => cases hround

/-- Refine's output carries the payload's tag. -/
theorem tagOf_refine (h : tagOf (refine P data) = some tag) : tagOf data = some tag := by
  cases hdata : tagOf data with
  | none =>
    have hdata' : data.head?.bind Tag.ofByte = none := hdata
    simp only [refine, hdata'] at h
    cases h
  | some t =>
    have hdata' : data.head?.bind Tag.ofByte = some t := hdata
    by_cases hround : t.isRound
    · cases hinput : roundInput P data with
      | none =>
        rw [refine_of_roundInput_none hdata hround hinput] at h
        cases h
      | some r =>
        rw [refine_of_roundInput hinput, (output_header P r _).1] at h
        rw [← h, ← hdata]
        exact (roundInput_spec hinput).tagged
    · have hsigned : ∀ {t'}, refine P data = (authenticate P t' data).getD [] →
          tagOf data = some tag := by
        intro t' heq
        rw [heq] at h
        cases hauth : authenticate P t' data with
        | none =>
          rw [hauth] at h
          cases h
        | some out =>
          rw [hauth] at h
          rw [← h, tagOf, tagOf, Option.getD_some, authenticate_head hauth]
      have hecho : refine P data = data → tagOf data = some tag := by
        intro heq
        rw [← h, heq]
      rw [← hdata]
      cases t with
      | deposit | list | carryCommit | carryEncCommit => exact hecho (by simp only [refine, hdata'])
      | smatch | reveal | encRound => exact (hround rfl).elim
      | commit | cancel | withdraw | register | treasury | encSetup | encCommit =>
        exact hsigned (by simp only [refine, hdata']; rfl)

/-- The operations that refine authenticates. -/
def Tag.isSigned : Tag → Bool
  | .withdraw | .cancel | .commit | .encCommit | .register | .treasury | .encSetup => true
  | _ => false

/-- What is passed on of a signed operation is what was authenticated. -/
theorem authenticate_of_signed (htag : tagOf (refine P data) = some tag) (hsigned : tag.isSigned) :
    authenticate P tag data = some (refine P data) := by
  have hdata : data.head?.bind Tag.ofByte = some tag := tagOf_refine htag
  have hrefine : refine P data = (authenticate P tag data).getD [] := by
    cases tag with
    | withdraw | cancel | commit | encCommit | register | treasury | encSetup =>
      simp only [refine, hdata]
    | _ => cases hsigned
  cases hauth : authenticate P tag data with
  | none =>
    rw [hrefine, hauth] at htag
    cases htag
  | some out => rw [hrefine, hauth, Option.getD_some]

theorem workResult_eq_ok {out : WorkOutput} (h : workResult P payload = .ok out) :
    out.val = refine P payload.val := by
  unfold workResult at h
  split_ifs at h
  cases h
  rfl

/-- An accepted round item: refine parsed its payload to `inp`, and accumulate took the step of
the sections refine emitted. -/
structure RoundDelivery (P : Primitives) (st : Storage) (item : WorkItem) (inp : RoundInput)
    (floors : List (UInt32 × UInt64)) (mid st' : Storage) : Prop where
  input : roundInput P item.payload.val = some inp
  step : RoundStep P item.slot st (inp.output P (roundId P item.payload.val)) inp.kind.tag
    (inp.sections P (roundId P item.payload.val)) floors mid st'

theorem roundDelivery_of_accepted (htag : tagOf item.payload.val = some tag)
    (hround : tag.isRound) (h : deliver P st item = (st', .accepted)) :
    ∃ inp floors mid, RoundDelivery P st item inp floors mid st' := by
  unfold deliver at h
  cases hresult : workResult P item.payload with
  | error e =>
    rw [hresult] at h
    cases h
  | ok out =>
    rw [hresult] at h
    have hout := workResult_eq_ok hresult
    cases hinput : roundInput P item.payload.val with
    | none =>
      rw [refine_of_roundInput_none htag hround hinput] at hout
      simp only [hout] at h
      cases h
    | some inp =>
      rw [refine_of_roundInput hinput] at hout
      have hkind : inp.kind.tag = tag :=
        Option.some.inj ((roundInput_spec hinput).tagged.symm.trans htag)
      have houtTag : tagOf out.val = some tag := by
        rw [hout, (output_header P inp _).1, hkind]
      obtain ⟨r, floors, mid, hstep⟩ := roundStep_of_accepted houtTag hround h
      have hparsed := hstep.parsed
      rw [hout, parseRoundOutput_output P inp _ (hout ▸ out.property)] at hparsed
      cases hparsed
      refine ⟨inp, floors, mid, hinput, ?_⟩
      rw [hkind, ← hout]
      exact hstep

/-- The settlement section decodes to the resolved fills. -/
theorem decodeSettlement_sections (hinput : roundInput P payload.val = some inp) (rid : Bytes32) :
    decodeSettlement (inp.sections P rid).settle =
      some ((clear P inp.orders).price, settleEntries inp.orders (clear P inp.orders).fills) := by
  have hlen := (roundInput_spec hinput).orders_length_lt payload.property
  exact decodeSettlement_encodeSettlement (clear_fills_resolve P inp.orders)
    ((length_clear_fills_le P inp.orders).trans_lt hlen)

/-- The settlement section of refine's output decodes to the fills of the orders in the payload. -/
theorem decodeSettlement_refine (hinput : roundInput P payload.val = some inp) :
    decodeSettlement (settleSection (refine P payload.val)) =
      some ((clear P inp.orders).price, settleEntries inp.orders (clear P inp.orders).fills) := by
  have hspec := roundInput_spec hinput
  have hsettle : (inp.sections P (roundId P payload.val)).settle.length < 2 ^ 32 := by
    have hlen := hspec.orders_length_le
    have hsize : payload.val.length ≤ maxInput := payload.property
    have hfills := length_clear_fills_le P inp.orders
    have hbound : (inp.sections P (roundId P payload.val)).settle.length ≤
        8 + (clear P inp.orders).fills.length * settleEntryLen := length_encodeSettlement_le _ _ _
    simp only [maxInput, settleEntryLen] at hsize hbound
    omega
  rw [refine_of_roundInput hinput, settleSection_output hsettle, decodeSettlement_sections hinput]

theorem roundDelivery_of_input (hinput : roundInput P item.payload.val = some inp)
    (h : deliver P st item = (st', .accepted)) :
    ∃ floors mid, RoundDelivery P st item inp floors mid st' := by
  have hround : inp.kind.tag.isRound := by
    cases inp.kind <;> rfl
  obtain ⟨inp', floors, mid, hdelivery⟩ :=
    roundDelivery_of_accepted (roundInput_spec hinput).tagged hround h
  cases hdelivery.input.symm.trans hinput
  exact ⟨floors, mid, hdelivery⟩

namespace RoundDelivery

variable {P : Primitives} {st st' mid : Storage} {item : WorkItem} {inp : RoundInput}
  {floors : List (UInt32 × UInt64)}

theorem market_eq (P : Primitives) (inp : RoundInput) (rid : Bytes32) :
    u32At (inp.output P rid) 1 = inp.market := (output_header P inp rid).2.1

theorem spec (h : RoundDelivery P st item inp floors mid st') :
    RoundSpec P item.payload.val inp := roundInput_spec h.input

theorem orders_length_lt (h : RoundDelivery P st item inp floors mid st') :
    inp.orders.length < 2 ^ 32 := h.spec.orders_length_lt item.payload.property

end RoundDelivery

/-- An item is refused and changes nothing, or is accepted and takes the step of its tag, or is an
accepted round. -/
theorem deliver_cases (P : Primitives) (st : Storage) (item : WorkItem) :
    deliver P st item = (st, .refused) ∨
    (∃ st' tag, deliver P st item = (st', .accepted) ∧
      tagOf (refine P item.payload.val) = some tag ∧ tag.isRound = false ∧
      ItemStep P item.slot st (refine P item.payload.val) st') ∨
    ∃ st' inp floors mid, deliver P st item = (st', .accepted) ∧
      RoundDelivery P st item inp floors mid st' := by
  cases hresult : workResult P item.payload with
  | error e =>
    refine Or.inl ?_
    simp only [deliver, hresult]
  | ok out =>
    have hdeliver : deliver P st item =
        accumulateItem P item.slot st (refine P item.payload.val) := by
      simp only [deliver, hresult, workResult_eq_ok hresult]
    cases hitem : accumulateItem P item.slot st (refine P item.payload.val) with
    | mk st' verdict =>
      rw [hitem] at hdeliver
      cases verdict with
      | refused =>
        rw [hdeliver, eq_of_refused hitem]
        exact Or.inl rfl
      | accepted =>
        refine Or.inr ?_
        have hstep := itemStep_of_accepted hitem
        obtain ⟨tag, htag⟩ := hstep.exists_tag
        by_cases hround : tag.isRound
        · obtain ⟨inp, floors, mid, hround⟩ :=
            roundDelivery_of_accepted (tagOf_refine htag) hround hdeliver
          exact Or.inr ⟨st', inp, floors, mid, hdeliver, hround⟩
        · exact Or.inl ⟨st', tag, hdeliver, htag, Bool.not_eq_true _ ▸ hround, hstep⟩

end Jamswap.Service
