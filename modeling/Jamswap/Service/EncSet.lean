import Jamswap.Service.CommitSets

/-!
# The set of encrypted orders

The encrypt-until-batch mode keeps its commitments in a second set per market, without an age index.
An item leaves it alone, appends one entry, or consumes the entries of a round (`encEdit`); so it
stays a sequence of whole entries (`wholeEntries_deliver`), and `count_encset_deliver` bounds the
copies of an entry by what was there and what was added.
-/

namespace Jamswap.Service

open Library Engine Storage

/-! ### Whole entries -/

variable {entry : Bytes} {key : Key} {mid st' : Storage}

section Entries

variable {st st' : Storage}

/-- The value of the key is a sequence of whole entries. -/
def WholeEntries (st : Storage) (key : Key) : Prop :=
  ∃ entries : List Bytes, st.getD key = entries.flatten ∧ ∀ e ∈ entries, e.length = setEntryLen

theorem WholeEntries.records_append (h : WholeEntries st key) (hlen : entry.length = setEntryLen) :
    records setEntryLen (st.getD key ++ entry) = records setEntryLen (st.getD key) ++ [entry] := by
  obtain ⟨entries, hentries, hwidth⟩ := h
  have hnew : ∀ e ∈ entries ++ [entry], e.length = setEntryLen := fun e he ↦ by
    rcases List.mem_append.mp he with hold | hnew
    · exact hwidth e hold
    · rw [List.mem_singleton.mp hnew, hlen]
  have hflat : st.getD key ++ entry = (entries ++ [entry]).flatten := by
    rw [hentries, List.flatten_append, List.flatten_singleton]
  rw [hflat, records_flatten (by decide) hnew, hentries, records_flatten (by decide) hwidth]

theorem WholeEntries.append (h : WholeEntries st key) (hlen : entry.length = setEntryLen)
    (hst' : st'.getD key = st.getD key ++ entry) : WholeEntries st' key := by
  obtain ⟨entries, hentries, hwidth⟩ := h
  refine ⟨entries ++ [entry], ?_, fun e he ↦ ?_⟩
  · rw [hst', hentries, List.flatten_append, List.flatten_singleton]
  · rcases List.mem_append.mp he with hold | hnew
    · exact hwidth e hold
    · rw [List.mem_singleton.mp hnew, hlen]

theorem getD_admitEntry {m : UInt32} (h : Carry.admitEntry st (.encset m) m entry = (true, mid)) :
    mid.getD (.encset m) = st.getD (.encset m) ++ entry := by
  obtain ⟨-, -, rfl⟩ := Carry.admitEntry_eq_true h
  exact getD_set_same _ _ _

end Entries

/-! ### One item -/

section Item

variable (P : Primitives) (market : UInt32) (st : Storage) (item : WorkItem)

/-- The entry the item adds to the market's set of encrypted orders: that of an accepted
owner-signed commit or of an accepted re-seal. -/
def encAddedEntry : Option Bytes :=
  let out := refine P item.payload.val
  match (deliver P st item).2, tagOf out with
  | .accepted, some .encCommit | .accepted, some .carryEncCommit =>
    if u32At out 1 = market then
      some ((commitment P (slice out 5 encCtEnd)).val ++ u32Bytes (u32At out encCtEnd))
    else none
  | _, _ => none

/-- The entries the item consumes from the set, if it is an accepted encrypted round. -/
def encConsumedEntries : List Bytes :=
  let out := refine P item.payload.val
  match (deliver P st item).2, tagOf out, parseRoundOutput out with
  | .accepted, some .encRound, some r =>
    if u32At out 1 = market then records setEntryLen r.consumed else []
  | _, _, _ => []

/-- What an item does to the market's set of encrypted orders. -/
inductive EncEdit : Prop
  | idle (added : encAddedEntry P market st item = none)
      (consumed : encConsumedEntries P market st item = [])
      (same : (deliver P st item).1.getD (.encset market) = st.getD (.encset market))
  | append (entry : Bytes) (sized : entry.length = setEntryLen)
      (added : encAddedEntry P market st item = some entry)
      (consumed : encConsumedEntries P market st item = [])
      (next : (deliver P st item).1.getD (.encset market) = st.getD (.encset market) ++ entry)
  | consume (rest : List Bytes) (added : encAddedEntry P market st item = none)
      (taken : consume (records setEntryLen (st.getD (.encset market)))
        (encConsumedEntries P market st item) = some rest)
      (next : (deliver P st item).1.getD (.encset market) = rest.flatten)

variable {P market st item}

theorem encEdit_item {tag : Tag} (hdeliver : deliver P st item = (st', .accepted))
    (htag : tagOf (refine P item.payload.val) = some tag) (hround : tag.isRound = false)
    (hstep : ItemStep P item.slot st (refine P item.payload.val) st') :
    EncEdit P market st item := by
  have hconsumed : encConsumedEntries P market st item = [] := by
    simp only [encConsumedEntries, hdeliver, htag]
    cases tag with
    | encRound => cases hround
    | _ => rfl
  have hst : (deliver P st item).1 = st' := by rw [hdeliver]
  by_cases hmine : (tag = .encCommit ∨ tag = .carryEncCommit) ∧
      u32At (refine P item.payload.val) 1 = market
  · obtain ⟨hkind, rfl⟩ := hmine
    have hadded : encAddedEntry P (u32At (refine P item.payload.val) 1) st item =
        some ((commitment P (slice (refine P item.payload.val) 5 encCtEnd)).val ++
          u32Bytes (u32At (refine P item.payload.val) encCtEnd)) := by
      simp only [encAddedEntry, hdeliver, htag]
      rcases hkind with rfl | rfl <;> exact if_pos trivial
    refine .append _ (length_entry (FixedBytes.length_val _) _) hadded hconsumed ?_
    rw [hst]
    rcases hkind with rfl | rfl
    · cases hstep with
      | encCommit tagged sized owner admitted =>
        rw [getD_set_same, (frame_admitCommit admitted).getD_eq (by simp), List.append_assoc]
      | round isRound step =>
        cases htag.symm.trans step.tagged
        cases isRound
      | _ => cases htag.symm.trans (by assumption)
    · cases hstep with
      | carryEncCommit tagged sized admitted =>
        rw [getD_admitEntry admitted, carryEntry_eq (FixedBytes.length_val _)]
        rfl
      | round isRound step =>
        cases htag.symm.trans step.tagged
        cases isRound
      | _ => cases htag.symm.trans (by assumption)
  · have hother : tag = .encCommit ∨ tag = .carryEncCommit →
        market ≠ u32At (refine P item.payload.val) 1 := fun hkind hm ↦ hmine ⟨hkind, hm.symm⟩
    refine .idle ?_ hconsumed ?_
    · simp only [encAddedEntry, hdeliver, htag]
      cases tag with
      | encCommit => exact if_neg fun hm ↦ hmine ⟨Or.inl rfl, hm⟩
      | carryEncCommit => exact if_neg fun hm ↦ hmine ⟨Or.inr rfl, hm⟩
      | _ => rfl
    · rw [hst]
      refine (hstep.frame htag).getD_eq ?_
      cases tag with
      | encCommit => simp [hother (Or.inl rfl)]
      | carryEncCommit => simp [hother (Or.inr rfl)]
      | smatch | reveal | encRound => cases hround
      | _ => simp

theorem encEdit_round {inp : RoundInput} {floors : List (UInt32 × UInt64)}
    (hdeliver : deliver P st item = (st', .accepted))
    (hdelivery : RoundDelivery P st item inp floors mid st') : EncEdit P market st item := by
  have hout := refine_of_roundInput hdelivery.input
  have htagged := hdelivery.step.tagged
  have hst : (deliver P st item).1 = st' := by rw [hdeliver]
  have hadded : encAddedEntry P market st item = none := by
    simp only [encAddedEntry, hdeliver, hout, htagged]
    cases inp.kind <;> rfl
  by_cases hmine : inp.kind.tag = .encRound ∧ inp.market = market
  · obtain ⟨hkind, rfl⟩ := hmine
    have hconsumed : encConsumedEntries P inp.market st item =
        records setEntryLen (inp.sections P (roundId P item.payload.val)).consumed := by
      simp only [encConsumedEntries, hdeliver, hout, htagged, hkind, hdelivery.step.parsed]
      exact if_pos (RoundDelivery.market_eq P inp _)
    have hkey : inp.kind.tag.setKey (u32At (inp.output P (roundId P item.payload.val)) 1) =
        some (.encset inp.market) := by
      rw [hkind, RoundDelivery.market_eq]
      rfl
    obtain ⟨rest, hrest, hvalue⟩ := hdelivery.step.set_eq hkey
    exact .consume rest hadded (hconsumed ▸ hrest) (hst ▸ hvalue)
  · refine .idle hadded ?_ ?_
    · simp only [encConsumedEntries, hdeliver, hout, htagged, hdelivery.step.parsed]
      cases hkind : inp.kind with
      | encRound committee opened =>
        refine if_neg fun hm ↦ hmine ⟨by rw [hkind]; rfl, ?_⟩
        exact (RoundDelivery.market_eq P inp _).symm.trans hm
      | _ => rfl
    · have hframe := hdelivery.step.frame_tag
      rw [RoundDelivery.market_eq] at hframe
      rw [hst]
      refine hframe.getD_eq ?_
      cases hkind : inp.kind with
      | encRound committee opened =>
        have hmarket : market ≠ inp.market := fun hm ↦ hmine ⟨by rw [hkind]; rfl, hm.symm⟩
        simp [RoundKind.tag, hmarket]
      | _ =>
        simp [RoundKind.tag]

variable (P market st item) in
theorem encEdit : EncEdit P market st item := by
  rcases deliver_cases P st item with hrefused | ⟨st', tag, hdeliver, htag, hround, hstep⟩ |
    ⟨st', inp, floors, mid, hdeliver, hdelivery⟩
  · refine .idle ?_ ?_ ?_
    · simp only [encAddedEntry, hrefused]
    · simp only [encConsumedEntries, hrefused]
    · rw [hrefused]
  · exact encEdit_item hdeliver htag hround hstep
  · exact encEdit_round hdeliver hdelivery

/-- Items keep the set of encrypted orders a sequence of whole entries. -/
theorem wholeEntries_deliver (h : WholeEntries st (.encset market)) :
    WholeEntries (deliver P st item).1 (.encset market) := by
  cases encEdit P market st item with
  | idle added consumed same =>
    rw [WholeEntries, same]
    exact h
  | append entry sized added consumed next => exact h.append sized next
  | consume rest added taken next =>
    exact ⟨rest, next, fun e he ↦ length_of_mem_records ((sublist_of_consume taken).subset he)⟩

/-- The copies of an entry after an item, and those it consumes, are copies from before or the one
it adds. -/
theorem count_encset_deliver (h : WholeEntries st (.encset market)) (e : Bytes) :
    (records setEntryLen ((deliver P st item).1.getD (.encset market))).count e +
        (encConsumedEntries P market st item).count e =
      (records setEntryLen (st.getD (.encset market))).count e +
        (encAddedEntry P market st item).toList.count e := by
  cases encEdit P market st item with
  | idle added consumed same =>
    rw [added, consumed, same]
    rfl
  | append entry sized added consumed next =>
    rw [added, consumed, next, h.records_append sized, List.count_append]
    rfl
  | consume rest added taken next =>
    have hwidth : ∀ e ∈ rest, e.length = setEntryLen := fun e he ↦
      length_of_mem_records ((sublist_of_consume taken).subset he)
    rw [added, next, records_flatten (by decide) hwidth, (perm_of_consume taken).count_eq,
      List.count_append, Nat.add_comm]
    rfl

end Item

theorem wholeEntries_runItems (P : Primitives) (market : UInt32) (items : List WorkItem) :
    WholeEntries (runItems P Store.empty items) (.encset market) :=
  invariant_of_alongRun (C := fun _ _ ↦ True) (I := fun st ↦ WholeEntries st (.encset market))
    (fun _ _ h _ ↦ wholeEntries_deliver h) ⟨[], rfl, by simp⟩
    (alongRun_of_forall (fun _ _ ↦ trivial) _ items)

end Jamswap.Service
