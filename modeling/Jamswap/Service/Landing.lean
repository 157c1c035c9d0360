import Jamswap.Service.Authorisation
import Jamswap.Service.EncSet
import Jamswap.Service.Replay

/-!
# Rounds land once

An accepted round leaves a trace: it changes its market's book, raises an order floor, or shrinks
the set it consumes from (`RoundDelivery.progress`). A payload with a new public order cannot land
again, since the floor it raised stays (`landed_le_one_of_public`). One with sealed orders can: its
commitments are consumed, but their owners may post the same ones again, and the same bytes then
pass every check a second time (`repostedRun_lands_twice`). It lands once in every run that adds no
entry to a set twice (`landed_le_one_of_sealed`).
-/

namespace Jamswap.Service

open Library Engine Storage

/-! ### What a round leaves behind -/

/-- Between the two storages the round changed the book, raised an order floor or shrank its set. -/
def RoundInput.Progress (inp : RoundInput) (st st' : Storage) : Prop :=
  st'.getD (.book inp.market) ≠ st.getD (.book inp.market) ∨
    (∃ account, getU64 st (.sq account) < getU64 st' (.sq account)) ∨
    ∃ key, inp.kind.tag.setKey inp.market = some key ∧ (st'.getD key).length < (st.getD key).length

variable {o : Opened} {key : Key} {market : UInt32} {items : List WorkItem}

namespace RoundDelivery

variable {P : Primitives} {st st' mid : Storage} {item : WorkItem} {inp : RoundInput}
  {floors : List (UInt32 × UInt64)}

/-- A binding's seq lies above the floor before the round and not above the floor after it. -/
theorem floor_raised (h : RoundDelivery P st item inp floors mid st') {b : Binding}
    (hb : b ∈ inp.ps.bindings) :
    getU64 st (.sq b.account) < b.seq ∧ b.seq ≤ getU64 st' (.sq b.account) := by
  refine h.step.issues.beaten (.order b.account, b.seq) (List.mem_map.mpr ⟨b, ?_, rfl⟩) rfl
  simpa only [RoundInput.sections, decodeBindings_encodeBindings] using hb

/-- Every sealed order takes an entry from the set. -/
theorem length_set_lt (h : RoundDelivery P st item inp floors mid st') (ho : o ∈ inp.kind.opened)
    (hkey : inp.kind.tag.setKey inp.market = some key) :
    (st'.getD key).length < (st.getD key).length := by
  rw [← market_eq P inp (roundId P item.payload.val)] at hkey
  obtain ⟨rest, hrest, hnext⟩ := h.step.set_eq hkey
  have hwidth : ∀ e ∈ rest, e.length = setEntryLen := fun e he ↦
    length_of_mem_records ((sublist_of_consume hrest).subset he)
  have hcount := (perm_of_consume hrest).length_eq
  have hconsumed : (records setEntryLen (inp.sections P (roundId P item.payload.val)).consumed) =
      inp.kind.opened.map Opened.entry := h.spec.records_consumed
  have hpos : 0 < inp.kind.opened.length := List.length_pos_of_mem ho
  have hstored := Nat.div_mul_le_self (st.getD key).length setEntryLen
  rw [length_records, hconsumed, List.length_append, List.length_map] at hcount
  rw [hnext, List.length_flatten, List.map_congr_left hwidth, List.map_const', List.sum_replicate,
    smul_eq_mul]
  have hlen : setEntryLen = 36 := rfl
  rw [hlen] at hstored hcount ⊢
  omega

theorem exists_setKey (ho : o ∈ inp.kind.opened) :
    ∃ key, inp.kind.tag.setKey inp.market = some key := by
  cases hkind : inp.kind with
  | smatch =>
    rw [hkind] at ho
    cases ho
  | reveal opened => exact ⟨_, rfl⟩
  | encRound committee opened => exact ⟨_, rfl⟩

/-- An accepted round is not a no-op. -/
theorem progress (h : RoundDelivery P st item inp floors mid st') : inp.Progress st st' := by
  have heffective := h.step.effective
  rw [market_eq, isNoopRound, Bool.and_eq_false_iff, Bool.and_eq_false_iff] at heffective
  rcases heffective with (hbindings | hconsumed) | hbook
  · refine Or.inr (Or.inl ?_)
    cases hps : inp.ps.bindings with
    | nil =>
      simp only [RoundInput.sections, hps] at hbindings
      cases hbindings
    | cons b bindings =>
      obtain ⟨habove, hraised⟩ := h.floor_raised (b := b) (by simp [hps])
      exact ⟨b.account, UInt64.lt_of_lt_of_le habove hraised⟩
  · refine Or.inr (Or.inr ?_)
    cases hopened : inp.kind.opened with
    | nil =>
      simp only [RoundInput.sections, RoundInput.consumed, hopened] at hconsumed
      cases hconsumed
    | cons o opened =>
      have ho : o ∈ inp.kind.opened := by simp [hopened]
      obtain ⟨key, hkey⟩ := exists_setKey ho
      exact ⟨key, hkey, h.length_set_lt ho hkey⟩
  · refine Or.inl ?_
    have hnew := h.step.book_eq
    rw [market_eq] at hnew
    rw [hnew]
    exact fun heq ↦ (beq_eq_false_iff_ne.mp hbook) heq.symm

end RoundDelivery

/-! ### How often a payload lands -/

section Landing

variable (P : Primitives)

/-- One if the item carries the payload and is accepted. -/
def landings (payload : WorkPayload) (st : Storage) (item : WorkItem) : ℕ :=
  if item.payload.val = payload.val ∧ (deliver P st item).2 = .accepted then 1 else 0

/-- How often the payload is accepted in a run from the empty storage. -/
def timesLanded (payload : WorkPayload) (items : List WorkItem) : ℕ :=
  totalOver (fun st item ↦ (deliver P st item).1) (landings P payload) Store.empty items

/-- The entry an accepted commit or re-seal adds, with the key of its set. -/
def posted (st : Storage) (item : WorkItem) : Option (Key × Bytes) :=
  let out := refine P item.payload.val
  match (deliver P st item).2, tagOf out with
  | .accepted, some .commit | .accepted, some .carryCommit =>
    some (.commits (u32At out 1), slice out 9 41 ++ u32Bytes (u32At out 5))
  | .accepted, some .encCommit | .accepted, some .carryEncCommit =>
    some (.encset (u32At out 1),
      (commitment P (slice out 5 encCtEnd)).val ++ u32Bytes (u32At out encCtEnd))
  | _, _ => none

/-- No accepted commit or re-seal of the run adds an entry that an earlier one added to the same
set. -/
def PostedOnce (items : List WorkItem) : Prop :=
  (issuedOver (fun st item ↦ (deliver P st item).1) (fun st item ↦ (posted P st item).toList)
    Store.empty items).Nodup

instance (items : List WorkItem) : Decidable (PostedOnce P items) :=
  inferInstanceAs (Decidable (List.Nodup _))

variable {P} {payload : WorkPayload} {inp : RoundInput} {st : Storage} {item : WorkItem}

theorem landings_le_one : landings P payload st item ≤ 1 := by
  unfold landings
  split_ifs <;> omega

/-- A landing of the payload is a delivery of the round refine parses from it. -/
theorem delivery_of_landing (hinput : roundInput P payload.val = some inp)
    (h : landings P payload st item ≠ 0) :
    ∃ st' floors mid, deliver P st item = (st', .accepted) ∧
      RoundDelivery P st item inp floors mid st' := by
  unfold landings at h
  split_ifs at h with hland
  · obtain ⟨hpayload, haccepted⟩ := hland
    have hdeliver : deliver P st item = ((deliver P st item).1, .accepted) :=
      Prod.ext rfl haccepted
    obtain ⟨floors, mid, hdelivery⟩ := roundDelivery_of_input (hpayload ▸ hinput) hdeliver
    exact ⟨_, floors, mid, hdeliver, hdelivery⟩
  · exact absurd rfl h

/-- A payload with a new public order lands at most once. -/
theorem landed_le_one_of_public (hinput : roundInput P payload.val = some inp)
    (hpublic : inp.ps.admitted ≠ []) (items : List WorkItem) : timesLanded P payload items ≤ 1 := by
  obtain ⟨a, ha⟩ := List.exists_mem_of_ne_nil _ hpublic
  have hb : a.2 ∈ inp.ps.bindings := List.mem_map_of_mem ha
  -- the seq is spent by the first landing: one unit of potential until the floor reaches it
  set potential : Storage → ℕ := fun st ↦
    if a.2.seq ≤ getU64 st (.sq a.2.account) then 0 else 1 with hpotential
  have hstep : ∀ st item, True →
      potential (deliver P st item).1 + landings P payload st item ≤ potential st + 0 := by
    intro st item _
    have hkept : a.2.seq ≤ getU64 st (.sq a.2.account) →
        a.2.seq ≤ getU64 (deliver P st item).1 (.sq a.2.account) := fun hle ↦
      UInt64.le_trans hle (floor_le_deliver P st item (l := .order a.2.account) rfl)
    by_cases hland : landings P payload st item = 0
    · simp only [hpotential, hland]
      split_ifs <;> grind
    · obtain ⟨st', floors, mid, hdeliver, hdelivery⟩ := delivery_of_landing hinput hland
      obtain ⟨habove, hraised⟩ := hdelivery.floor_raised hb
      have hone := @landings_le_one P payload st item
      simp only [hpotential, hdeliver]
      rw [if_pos hraised, if_neg (UInt64.not_le.mpr habove)]
      omega
  have haccount := @account_of_alongRun _ _ (fun st item ↦ (deliver P st item).1) _ potential
    (landings P payload) (fun _ _ ↦ 0) hstep _ _
    (alongRun_of_forall (fun _ _ ↦ trivial) Store.empty items)
  have hnone : totalOver (fun st item ↦ (deliver P st item).1) (fun _ _ ↦ 0)
      Store.empty items = 0 :=
    Nat.le_zero.mp
      ((totalOver_le_sum (g := fun _ ↦ 0) (fun _ _ ↦ Nat.le_refl _) _ _).trans (by simp))
  have hstart : potential Store.empty ≤ 1 := by
    simp only [hpotential]
    split_ifs <;> omega
  unfold timesLanded
  omega

/-- The entries an accepted round consumes are those of the orders it opens. -/
theorem consumedEntries_of_delivery {st' mid : Storage} {floors : List (UInt32 × UInt64)}
    (hdeliver : deliver P st item = (st', .accepted))
    (hdelivery : RoundDelivery P st item inp floors mid st') :
    (inp.kind.tag = .reveal →
      consumedEntries P inp.market st item = inp.kind.opened.map Opened.entry) ∧
    (inp.kind.tag = .encRound →
      encConsumedEntries P inp.market st item = inp.kind.opened.map Opened.entry) := by
  rw [← hdelivery.spec.records_consumed]
  constructor
  all_goals
    intro hkind
    simp only [consumedEntries, encConsumedEntries, hdeliver, refine_of_roundInput hdelivery.input,
      hdelivery.step.tagged, hkind, hdelivery.step.parsed]
    exact if_pos (RoundDelivery.market_eq P inp _)

theorem posted_of_added {e : Bytes} :
    (addedEntry P market st item = some e → posted P st item = some (.commits market, e)) ∧
    (encAddedEntry P market st item = some e → posted P st item = some (.encset market, e)) := by
  constructor
  all_goals
    intro h
    simp only [addedEntry, encAddedEntry] at h
    split at h
    case h_3 => cases h
    all_goals
      rename_i haccepted htag
      obtain ⟨rfl, he⟩ := Option.ite_none_right_eq_some.mp h
      simp only [posted, haccepted, htag]
      exact congrArg (fun e ↦ some (_, e)) (Option.some.inj he)

theorem count_le_posted {added : Option Bytes}
    (h : ∀ e, added = some e → posted P st item = some (key, e)) (e : Bytes) :
    added.toList.count e ≤ (posted P st item).toList.count (key, e) := by
  cases hadded : added with
  | none => exact Nat.zero_le _
  | some e' =>
    rw [h e' hadded]
    by_cases he : e' = e
    · subst he
      simp
    · simp [he]

/-- The copies of an entry in the commit set after an item, and those it consumes, are copies from
before or the one it adds. -/
theorem count_commits_deliver {idx : List (Bytes × UInt32)} (h : InStep st market idx [])
    (e : Bytes) :
    (records setEntryLen ((deliver P st item).1.getD (.commits market))).count e +
        (consumedEntries P market st item).count e ≤
      (records setEntryLen (st.getD (.commits market))).count e +
        (addedEntry P market st item).toList.count e := by
  obtain ⟨hnext, hconsumed⟩ := @inStep_deliver P market st item idx h
  have hcount := hconsumed.count_le e
  rw [← length_stampsOf] at hcount
  rw [hnext.count_commits, h.count_commits, List.count_nil, ageStep]
  cases hadded : addedEntry P market st item with
  | none =>
    simp only [stampsOf_dropOldest, List.length_drop, Option.toList_none, List.count_nil]
    omega
  | some e' =>
    have hlive : (stampsOf (idx.filter fun c ↦ !decide (c.2 ≤ item.slot)) e).length ≤
        (stampsOf idx e).length := ((List.filter_sublist.filter _).map Prod.snd).length_le
    have hnew : (stampsOf [(e', satAdd32 item.slot commitTtlSlots)] e).length = [e'].count e := by
      rw [length_stampsOf]
      rfl
    simp only [consumedEntries_of_added hadded, stampsOf_append, List.length_append,
      Option.toList_some, List.count_nil, hnew]
    omega

/-- If every landing of the payload takes the entry from the set, the landings are bounded by the
postings of the entry. -/
theorem landed_le_one_of_set {I : Storage → Prop} (key : Key) (e : Bytes)
    (added : Storage → WorkItem → Option Bytes) (consumed : Storage → WorkItem → List Bytes)
    (hkeep : ∀ st item, I st → I (deliver P st item).1) (hempty : I Store.empty)
    (hcount : ∀ st item, I st →
      (records setEntryLen ((deliver P st item).1.getD key)).count e + (consumed st item).count e ≤
        (records setEntryLen (st.getD key)).count e + (added st item).toList.count e)
    (hadded : ∀ st item e, added st item = some e → posted P st item = some (key, e))
    (hconsumed : ∀ st item, landings P payload st item ≠ 0 → e ∈ consumed st item)
    (hposted : PostedOnce P items) : timesLanded P payload items ≤ 1 := by
  have hstep : ∀ st item, I st →
      (records setEntryLen ((deliver P st item).1.getD key)).count e + landings P payload st item ≤
        (records setEntryLen (st.getD key)).count e +
          (posted P st item).toList.count (key, e) := by
    intro st item hI
    have hbound := hcount st item hI
    have hpost := count_le_posted (hadded st item) e
    have hone := @landings_le_one P payload st item
    by_cases hland : landings P payload st item = 0
    · omega
    · have htaken := List.count_pos_iff.mpr (hconsumed st item hland)
      omega
  have haccount := @account_of_alongRun _ _ (fun st item ↦ (deliver P st item).1) _
    (fun st ↦ (records setEntryLen (st.getD key)).count e) (landings P payload)
    (fun st item ↦ (posted P st item).toList.count (key, e)) hstep _ _
    (alongRun_of_invariant hkeep hempty items)
  have hnone : (records setEntryLen (Storage.getD Store.empty key)).count e = 0 := by
    rw [show Storage.getD Store.empty key = [] from rfl, records_nil, List.count_nil]
  have honce := List.nodup_iff_count_le_one.mp hposted (key, e)
  rw [totalOver_count, hnone] at haccount
  unfold timesLanded
  omega

/-- In a run that posts no entry twice, a payload with a sealed order lands at most once. -/
theorem landed_le_one_of_sealed (hinput : roundInput P payload.val = some inp)
    (hsealed : inp.kind.opened ≠ []) (hposted : PostedOnce P items) :
    timesLanded P payload items ≤ 1 := by
  obtain ⟨o, ho⟩ := List.exists_mem_of_ne_nil _ hsealed
  have hentry : o.entry ∈ inp.kind.opened.map Opened.entry := List.mem_map_of_mem ho
  cases hkind : inp.kind with
  | smatch =>
    rw [hkind] at ho
    cases ho
  | reveal opened =>
    refine landed_le_one_of_set (I := fun st ↦ ∃ idx, InStep st inp.market idx [])
      (.commits inp.market) o.entry (addedEntry P inp.market) (consumedEntries P inp.market) ?_
      ⟨[], inStep_empty _⟩ ?_ (fun _ _ _ ↦ posted_of_added.1) ?_ hposted
    · rintro st item ⟨idx, h⟩
      exact ⟨_, (inStep_deliver h).1⟩
    · rintro st item ⟨idx, h⟩
      exact count_commits_deliver h o.entry
    · intro st item hland
      obtain ⟨st', floors, mid, hdeliver, hdelivery⟩ := delivery_of_landing hinput hland
      rw [(consumedEntries_of_delivery hdeliver hdelivery).1 (by rw [hkind]; rfl)]
      exact hentry
  | encRound committee opened =>
    refine landed_le_one_of_set (I := fun st ↦ WholeEntries st (.encset inp.market))
      (.encset inp.market) o.entry (encAddedEntry P inp.market) (encConsumedEntries P inp.market)
      (fun _ _ ↦ wholeEntries_deliver) ⟨[], rfl, by simp⟩ ?_
      (fun _ _ _ ↦ posted_of_added.2) ?_ hposted
    · intro st item h
      exact (count_encset_deliver h o.entry).le
    · intro st item hland
      obtain ⟨st', floors, mid, hdeliver, hdelivery⟩ := delivery_of_landing hinput hland
      rw [(consumedEntries_of_delivery hdeliver hdelivery).2 (by rw [hkind]; rfl)]
      exact hentry

end Landing

/-- Rounds make progress and land once. Every accepted round of a run changes its market's book,
raises an order floor or shrinks the set it consumes from. A payload with a new public order is
accepted at most once; one with a sealed order is, too, in every run that adds no entry to a set
twice. -/
theorem accepted_rounds_land_once (P : Primitives) (items : List WorkItem) :
    (∀ before item after inp, items = before ++ item :: after →
      roundInput P item.payload.val = some inp →
      (deliver P (runItems P Store.empty before) item).2 = .accepted →
        inp.Progress (runItems P Store.empty before)
          (runItems P Store.empty (before ++ [item]))) ∧
    ∀ (payload : WorkPayload) (inp : RoundInput), roundInput P payload.val = some inp →
      (inp.ps.admitted ≠ [] → timesLanded P payload items ≤ 1) ∧
      (PostedOnce P items → inp.kind.opened ≠ [] → timesLanded P payload items ≤ 1) := by
  constructor
  · intro before item after inp _ hinput haccepted
    obtain ⟨floors, mid, hdelivery⟩ := roundDelivery_of_input hinput (Prod.ext rfl haccepted)
    rw [runItems_concat]
    exact hdelivery.progress
  · intro payload inp hinput
    exact ⟨fun hpublic ↦ landed_le_one_of_public hinput hpublic items,
      fun hposted hsealed ↦ landed_le_one_of_sealed hinput hsealed hposted⟩

/-- A reveal of one sealed buy of the account registered first, on market 0. -/
def loneReveal : WorkPayload :=
  ⟨revealPayload Primitives.toy 0 3 4 [zeroReveal ⟨1, 7, .buy, 5, 4⟩] (publicSectionBytes [] [] []),
    by decide +kernel⟩

/-- The buy is committed and revealed. -/
def revealedRun : List WorkItem :=
  [firstRegistration,
    ⟨2, ⟨[Tag.list.byte] ++ u32Bytes 0 ++ u32Bytes 3 ++ u32Bytes 4, by simp [maxInput]⟩⟩,
    firstOwnersCommit 3 (commitment Primitives.toy (zeroReveal ⟨1, 7, .buy, 5, 4⟩)) 1,
    ⟨10, loneReveal⟩]

/-- Its owner posts the same commitment again, and the same reveal is delivered again. -/
def repostedRun : List WorkItem :=
  revealedRun ++
    [firstOwnersCommit 11 (commitment Primitives.toy (zeroReveal ⟨1, 7, .buy, 5, 4⟩)) 2,
      ⟨12, loneReveal⟩]

theorem accepted_rounds_land_once_revealedRun :
    timesLanded Primitives.toy loneReveal revealedRun = 1 ∧
      timesLanded Primitives.toy loneReveal revealedRun ≤ 1 := by
  have hparsed : ((roundInput Primitives.toy loneReveal.val).map fun inp ↦ inp.kind.opened.length) =
      some 1 := by decide +kernel
  obtain ⟨inp, hinput, hopened⟩ := Option.map_eq_some_iff.mp hparsed
  constructor
  · decide +kernel
  · apply ((accepted_rounds_land_once Primitives.toy revealedRun).2 loneReveal inp hinput).2
    · decide +kernel
    · exact List.ne_nil_of_length_eq_add_one hopened

/-- The same bytes, with a sealed order, are accepted twice. -/
theorem repostedRun_lands_twice :
    ((roundInput Primitives.toy loneReveal.val).map fun inp ↦ inp.kind.opened.length) = some 1 ∧
      timesLanded Primitives.toy loneReveal repostedRun = 2 := by
  constructor
  · decide +kernel
  · decide +kernel

end Jamswap.Service
