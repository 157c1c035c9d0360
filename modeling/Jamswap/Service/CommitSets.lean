import Jamswap.Library.Aging
import Jamswap.Library.Runs
import Jamswap.Service.Delivery

/-!
# The commit set and its age index

A market's commitments are kept in two byte strings, the set itself and an index of expiry slots,
which four handlers edit in different orders. `InStep` says what the two hold: the index a list of
aged entries, the set those entries in some order (and, in the middle of an admission, the one not
yet indexed). Every edit keeps them in step, and on the list of aged entries it is an append, a
reaping or a dropping of oldest copies (`InStep.gc`, `InStep.consume`, `inStep_deliver`).

Over a run, an entry's copies then come and go first in, first out (`Kept`), which settles how often
it was added, consumed and reaped (`commitments_conserved`).
-/

namespace Jamswap.Service

open Library Engine Storage

/-! ### Set and index in step -/

/-- A record of the age index: entry ‖ expiry slot. -/
def cageRecord (c : Bytes × UInt32) : Bytes := c.1 ++ u32Bytes c.2

/-- The market's index holds `idx`, and its set the entries of the index and `extra`. -/
structure InStep (st : Storage) (market : UInt32) (idx : List (Bytes × UInt32))
    (extra : List Bytes) : Prop where
  width : ∀ c ∈ idx, c.1.length = setEntryLen
  extraWidth : ∀ e ∈ extra, e.length = setEntryLen
  cage : st.getD (.cage market) = idx.flatMap cageRecord
  commits : ∃ entries : List Bytes, st.getD (.commits market) = entries.flatten ∧
    entries.Perm (idx.map Prod.fst ++ extra)

/-- The market's set and index read the same in both storages. -/
structure Untouched (market : UInt32) (st st' : Storage) : Prop where
  cage : st'.getD (.cage market) = st.getD (.cage market)
  commits : st'.getD (.commits market) = st.getD (.commits market)

variable {st' : Storage} {c : Bytes × UInt32} {cid : Bytes} {account : UInt32}
  {idx : List (Bytes × UInt32)} {item : WorkItem}

theorem Untouched.of_frame {market : UInt32} {st : Storage} {K : Set Key} (hframe : Frame K st st')
    (hcage : .cage market ∉ K) (hcommits : .commits market ∉ K) : Untouched market st st' :=
  ⟨hframe.getD_eq hcage, hframe.getD_eq hcommits⟩

section Bytes

variable {idx : List (Bytes × UInt32)}

theorem length_cageRecord (h : c.1.length = setEntryLen) :
    (cageRecord c).length = cageEntryLen := by
  rw [cageRecord, List.length_append, h, length_u32Bytes]
  rfl

theorem take_cageRecord (h : c.1.length = setEntryLen) : (cageRecord c).take setEntryLen = c.1 := by
  rw [cageRecord, ← h, List.take_left]

theorem u32At_cageRecord (h : c.1.length = setEntryLen) :
    u32At (cageRecord c) setEntryLen = c.2 := by
  have hcursor : Cursor (cageRecord c) 0 c.1 (u32Bytes c.2 ++ []) := by
    rw [List.append_nil]
    exact Cursor.start _ _
  exact (hcursor.next (j := setEntryLen) (by rw [h, Nat.zero_add])).u32At_eq

theorem records_cage (hwidth : ∀ c ∈ idx, c.1.length = setEntryLen) :
    records cageEntryLen (idx.flatMap cageRecord) = idx.map cageRecord :=
  records_flatMap_of_mem (by decide) cageRecord fun c hc ↦ length_cageRecord (hwidth c hc)

/-- What each target removes is told by the leading bytes of the records, whatever they encode. -/
theorem foldl_eraseP_map {α : Type} {enc key : α → Bytes} {width : ℕ} {xs : List α}
    (hkey : ∀ x ∈ xs, (enc x).take width = key x) (targets : List Bytes) :
    targets.foldl (fun entries t ↦ entries.eraseP fun e ↦ e.take width == t) (xs.map enc) =
      (targets.foldl (fun xs t ↦ xs.eraseP fun x ↦ key x == t) xs).map enc := by
  have hone : ∀ (xs : List α), (∀ x ∈ xs, (enc x).take width = key x) → ∀ t : Bytes,
      (xs.map enc).eraseP (fun e ↦ e.take width == t) =
        (xs.eraseP fun x ↦ key x == t).map enc := by
    intro xs hkey t
    induction xs with
    | nil => rfl
    | cons x xs ih =>
      rw [List.map_cons, List.eraseP_cons, List.eraseP_cons, hkey x List.mem_cons_self]
      cases key x == t with
      | true => rfl
      | false => exact congrArg (enc x :: ·) (ih fun y hy ↦ hkey y (List.mem_cons_of_mem x hy))
  induction targets generalizing xs with
  | nil => rfl
  | cons t targets ih =>
    rw [List.foldl_cons, List.foldl_cons, hone xs hkey t]
    exact ih fun x hx ↦ hkey x (List.eraseP_sublist.subset hx)

/-- Purging the index drops the oldest copy of every target. -/
theorem removeFirstMatch_cage (hwidth : ∀ c ∈ idx, c.1.length = setEntryLen) (targets : Bytes) :
    removeFirstMatch (idx.flatMap cageRecord) targets cageEntryLen setEntryLen =
      (dropOldest idx (records setEntryLen targets)).flatMap cageRecord := by
  rw [removeFirstMatch, if_neg (by decide), records_cage hwidth,
    foldl_eraseP_map fun c hc ↦ take_cageRecord (hwidth c hc), List.flatMap_def]
  rfl

/-- Removing targets from the set is a difference of lists. -/
theorem removeFirstMatch_set {entries : List Bytes} (hwidth : ∀ e ∈ entries, e.length = setEntryLen)
    (targets : Bytes) :
    removeFirstMatch entries.flatten targets setEntryLen setEntryLen =
      (entries.diff (records setEntryLen targets)).flatten := by
  have hkey : ∀ e ∈ entries, (id e).take setEntryLen = id e := fun e he ↦
    List.take_of_length_le (hwidth e he).le
  have hdiff := foldl_eraseP_map hkey (records setEntryLen targets)
  have herase : (fun (xs : List Bytes) t ↦ xs.eraseP fun x ↦ id x == t) = List.erase :=
    funext₂ fun xs t ↦ (List.erase_eq_eraseP' t xs).symm
  rw [List.map_id, List.map_id, herase] at hdiff
  rw [removeFirstMatch, if_neg (by decide), records_flatten (by decide) hwidth, hdiff,
    List.diff_eq_foldl]

/-- Reaping splits the index at the slot. -/
theorem reapExpired_cage (hwidth : ∀ c ∈ idx, c.1.length = setEntryLen) (slot : UInt32) :
    reapExpired (idx.flatMap cageRecord) slot cageEntryLen setEntryLen =
      ((idx.filter fun c ↦ !decide (c.2 ≤ slot)).flatMap cageRecord,
        ((idx.filter fun c ↦ decide (c.2 ≤ slot)).map Prod.fst).flatten) := by
  have hexpiry : ∀ c ∈ idx, u32At (cageRecord c) setEntryLen = c.2 :=
    fun c hc ↦ u32At_cageRecord (hwidth c hc)
  rw [reapExpired, if_neg (by decide)]
  simp only [records_cage hwidth, List.filter_map]
  refine Prod.ext ?_ ?_
  · rw [List.flatMap_def]
    refine congrArg (fun kept ↦ (List.map cageRecord kept).flatten) ?_
    exact List.filter_congr fun c hc ↦ by rw [Function.comp_apply, hexpiry c hc]
  · have hfilter : idx.filter ((fun e ↦ decide (u32At e setEntryLen ≤ slot)) ∘ cageRecord) =
        idx.filter fun c ↦ decide (c.2 ≤ slot) :=
      List.filter_congr fun c hc ↦ by rw [Function.comp_apply, hexpiry c hc]
    rw [hfilter, List.flatMap_def, List.map_map]
    refine congrArg List.flatten (List.map_congr_left fun c hc ↦ ?_)
    exact take_cageRecord (hwidth c (List.mem_of_mem_filter hc))

end Bytes

/-! ### The edits -/

namespace InStep

variable {st st' : Storage} {market : UInt32} {idx : List (Bytes × UInt32)} {extra : List Bytes}

theorem entries_width (h : InStep st market idx extra) {entries : List Bytes}
    (hperm : entries.Perm (idx.map Prod.fst ++ extra)) : ∀ e ∈ entries, e.length = setEntryLen := by
  intro e he
  rcases List.mem_append.mp (hperm.mem_iff.mp he) with hidx | hextra
  · obtain ⟨c, hc, rfl⟩ := List.mem_map.mp hidx
    exact h.width c hc
  · exact h.extraWidth e hextra

/-- The copies of an entry in the set are its copies in the index. -/
theorem count_commits (h : InStep st market idx extra) (e : Bytes) :
    (records setEntryLen (st.getD (.commits market))).count e =
      (stampsOf idx e).length + extra.count e := by
  obtain ⟨entries, hentries, hperm⟩ := h.commits
  rw [hentries, records_flatten (by decide) (h.entries_width hperm), hperm.count_eq,
    List.count_append, length_stampsOf]

theorem records_reaped (h : InStep st market idx extra) (slot : UInt32) :
    records setEntryLen (reapExpired (st.getD (.cage market)) slot cageEntryLen setEntryLen).2 =
      (idx.filter fun c ↦ decide (c.2 ≤ slot)).map Prod.fst := by
  rw [h.cage, reapExpired_cage h.width]
  refine records_flatten (by decide) fun e he ↦ ?_
  obtain ⟨c, hc, rfl⟩ := List.mem_map.mp he
  exact h.width c (List.mem_of_mem_filter hc)

theorem of_untouched (h : InStep st market idx extra) (hsame : Untouched market st st') :
    InStep st' market idx extra :=
  ⟨h.width, h.extraWidth, hsame.cage.trans h.cage, hsame.commits ▸ h.commits⟩

/-- Append an entry to the set. -/
theorem append (h : InStep st market idx []) {entry : Bytes} (hlen : entry.length = setEntryLen) :
    InStep (st.set (.commits market) (st.getD (.commits market) ++ entry)) market idx [entry] := by
  obtain ⟨entries, hentries, hperm⟩ := h.commits
  rw [List.append_nil] at hperm
  refine ⟨h.width, by simpa using hlen, ?_, entries ++ [entry], ?_, hperm.append_right _⟩
  · rw [getD_set_ne _ _ (by simp), h.cage]
  · rw [getD_set_same, hentries, List.flatten_append, List.flatten_singleton]

/-- Index the entry that is in the set only. -/
theorem cageAdd (h : InStep st market idx [cid ++ u32Bytes account]) (slot : UInt32) :
    InStep (cageAdd st market cid account slot) market
      (idx ++ [(cid ++ u32Bytes account, satAdd32 slot commitTtlSlots)]) [] := by
  obtain ⟨entries, hentries, hperm⟩ := h.commits
  refine ⟨fun c hc ↦ ?_, by simp, ?_, entries, ?_, ?_⟩
  · rcases List.mem_append.mp hc with hc | hc
    · exact h.width c hc
    · rw [List.mem_singleton.mp hc]
      exact h.extraWidth _ (by simp)
  · rw [Service.cageAdd, getD_set_same, h.cage, List.flatMap_append, List.flatMap_singleton,
      cageRecord]
    simp only [List.append_assoc]
  · rw [Service.cageAdd, getD_set_ne _ _ (by simp), hentries]
  · rwa [List.map_append, List.append_nil]

/-- Reap what has expired, from both. -/
theorem gc (h : InStep st market idx extra) (slot : UInt32) :
    InStep (gcCommits st market slot) market (idx.filter fun c ↦ !decide (c.2 ≤ slot)) extra := by
  set live := idx.filter fun c ↦ !decide (c.2 ≤ slot) with hlive
  set dead := idx.filter fun c ↦ decide (c.2 ≤ slot) with hdead
  have hsplit := reapExpired_cage h.width slot
  have hrecords := h.records_reaped slot
  rw [← h.cage] at hsplit
  simp only [gcCommits]
  split_ifs with hnone
  · -- nothing reaped means nothing dead, since entries are not empty
    have hkeep : live = idx := by
      refine List.filter_eq_self.mpr fun c hc ↦ ?_
      by_contra hexpired
      have hmem : c.1 ∈ dead.map Prod.fst :=
        List.mem_map_of_mem (List.mem_filter.mpr ⟨hc, by simpa using hexpired⟩)
      rw [← hrecords, List.isEmpty_iff.mp hnone, records_nil] at hmem
      cases hmem
    rw [hkeep]
    exact h
  · obtain ⟨entries, hentries, hperm⟩ := h.commits
    refine ⟨fun c hc ↦ h.width c (List.mem_of_mem_filter hc), h.extraWidth, ?_,
      entries.diff (dead.map Prod.fst), ?_, ?_⟩
    · rw [getD_set_ne _ _ (by simp), getD_set_same, hsplit]
    · rw [getD_set_same, getD_set_ne _ _ (by simp), hentries,
        removeFirstMatch_set (h.entries_width hperm), hrecords]
    · refine (hperm.diff_right _).trans ?_
      have hwhole : (idx.map Prod.fst ++ extra).Perm
          (dead.map Prod.fst ++ (live.map Prod.fst ++ extra)) := by
        rw [← List.append_assoc]
        exact (perm_dead_live (fun expiry : UInt32 ↦ decide (expiry ≤ slot))
          idx).symm.append_right _
      refine (hwhole.diff_right _).trans (List.perm_iff_count.mpr fun e ↦ ?_)
      rw [List.count_diff, List.count_append, Nat.add_sub_cancel_left]

/-- Consume entries from the set and purge them from the index. -/
theorem consume (h : InStep st market idx []) {consumed : Bytes}
    (hconsume : consumeSet st (.commits market) consumed = (true, st')) :
    InStep (cagePurge st' market consumed) market
      (dropOldest idx (records setEntryLen consumed)) [] ∧
      (records setEntryLen consumed).Subperm (idx.map Prod.fst) := by
  obtain ⟨rest, hrest, rfl⟩ := consumeSet_eq_true hconsume
  obtain ⟨entries, hentries, hperm⟩ := h.commits
  rw [hentries, records_flatten (by decide) (h.entries_width hperm)] at hrest
  rw [List.append_nil] at hperm
  refine ⟨⟨fun c hc ↦ h.width c ((dropOldest_sublist _ _).subset hc), by simp, ?_, rest, ?_, ?_⟩,
    (subperm_of_consume hrest).trans hperm.subperm⟩
  · rw [cagePurge, getD_set_same, getD_set_ne _ _ (by simp), h.cage, removeFirstMatch_cage h.width]
  · rw [cagePurge, getD_set_ne _ _ (by simp), getD_set_same]
  · rw [List.append_nil, map_fst_dropOldest, eq_diff_of_consume hrest]
    exact hperm.diff_right _

end InStep

/-! ### One item -/

section Item

variable (P : Primitives) (market : UInt32) (st : Storage) (item : WorkItem)

/-- The entry the item adds to the market's commit set: that of an accepted owner-signed commit or
of an accepted re-seal. -/
def addedEntry : Option Bytes :=
  let out := refine P item.payload.val
  match (deliver P st item).2, tagOf out with
  | .accepted, some .commit | .accepted, some .carryCommit =>
    if u32At out 1 = market then some (slice out 9 41 ++ u32Bytes (u32At out 5)) else none
  | _, _ => none

/-- The entries the item consumes from the market's commit set, if it is an accepted reveal. -/
def consumedEntries : List Bytes :=
  let out := refine P item.payload.val
  match (deliver P st item).2, tagOf out, parseRoundOutput out with
  | .accepted, some .reveal, some r =>
    if u32At out 1 = market then records setEntryLen r.consumed else []
  | _, _, _ => []

/-- The entries the item reaps from the market's commit set, which only admissions do. -/
def reapedEntries : List Bytes :=
  if (addedEntry P market st item).isSome then
    records setEntryLen
      (reapExpired (st.getD (.cage market)) item.slot cageEntryLen setEntryLen).2
  else []

/-- The aged entries after the item. -/
def ageStep (idx : List (Bytes × UInt32)) : List (Bytes × UInt32) :=
  match addedEntry P market st item with
  | some e =>
    (idx.filter fun c ↦ !decide (c.2 ≤ item.slot)) ++ [(e, satAdd32 item.slot commitTtlSlots)]
  | none => dropOldest idx (consumedEntries P market st item)

variable {P market st item}

theorem ageStep_of_idle (hadded : addedEntry P market st item = none)
    (hconsumed : consumedEntries P market st item = []) (idx : List (Bytes × UInt32)) :
    ageStep P market st item idx = idx := by
  rw [ageStep, hadded, hconsumed]
  rfl

theorem consumedEntries_of_added {e : Bytes} (h : addedEntry P market st item = some e) :
    consumedEntries P market st item = [] := by
  simp only [addedEntry] at h
  split at h
  · simp_all [consumedEntries]
  · simp_all [consumedEntries]
  · cases h

theorem length_entry (hcid : cid.length = 32) (account : UInt32) :
    (cid ++ u32Bytes account).length = setEntryLen := by
  rw [List.length_append, hcid, length_u32Bytes]
  rfl

theorem carryEntry_eq (hcid : cid.length = 32) (account : UInt32) :
    carryEntry cid account = cid ++ u32Bytes account := by
  rw [carryEntry, slice, List.drop_zero, List.take_of_length_le hcid.le]

theorem InStep.recordCommit {slot : UInt32} (h : InStep st market idx []) (hcid : cid.length = 32) :
    InStep (recordCommit slot st market cid account) market
      ((idx.filter fun c ↦ !decide (c.2 ≤ slot)) ++
        [(cid ++ u32Bytes account, satAdd32 slot commitTtlSlots)]) [] := by
  have happend := (h.gc slot).append (length_entry hcid account)
  rw [← List.append_assoc] at happend
  exact happend.cageAdd slot

theorem untouched_credits (st : Storage) (market account : UInt32) (v : Bytes) :
    Untouched market st (st.set (.cw market account) v) :=
  .of_frame (frame_set_self st _ _) (by simp) (by simp)

/-- A re-seal admitted to the set is appended to it, and costs a credit. -/
theorem admitEntry_commits {mid : Storage} {account : UInt32} {cid : Bytes} (hcid : cid.length = 32)
    (hadmitted : Carry.admitEntry st (.commits market) market (carryEntry cid account) =
      (true, mid)) :
    ∃ paid, Untouched market st paid ∧
      mid = paid.set (.commits market)
        (paid.getD (.commits market) ++ (cid ++ u32Bytes account)) := by
  obtain ⟨-, -, rfl⟩ := Carry.admitEntry_eq_true hadmitted
  rw [carryEntry_eq hcid]
  set payer := u32At (cid ++ u32Bytes account) 32
  have hpaid : Untouched market st
      (Carry.setCredits st market payer (Carry.credits st market payer - 1)) :=
    untouched_credits st market _ _
  refine ⟨_, hpaid, ?_⟩
  rw [Carry.setCredits, getD_set_ne _ _ (by simp)]

theorem InStep.carryCommit {mid : Storage} {idx : List (Bytes × UInt32)} {slot account : UInt32}
    {cid : Bytes} (h : InStep st market idx []) (hcid : cid.length = 32)
    (hadmitted : Carry.admitEntry st (.commits market) market (carryEntry cid account) =
      (true, mid)) :
    InStep (Service.cageAdd (gcCommits mid market slot) market cid account slot) market
      ((idx.filter fun c ↦ !decide (c.2 ≤ slot)) ++
        [(cid ++ u32Bytes account, satAdd32 slot commitTtlSlots)]) [] := by
  obtain ⟨paid, hpaid, rfl⟩ := admitEntry_commits hcid hadmitted
  have happend := (h.of_untouched hpaid).append (length_entry hcid account)
  exact (happend.gc slot).cageAdd slot

variable (P market st item) in
/-- What an item does to the market's set and index: leave them alone, admit a commitment (reaping
first), admit a re-seal (reaping in between), or consume the entries of a reveal. -/
inductive CommitEdit : Prop
  | idle (added : addedEntry P market st item = none)
      (consumed : consumedEntries P market st item = [])
      (same : Untouched market st (deliver P st item).1)
  | commit (mid : Storage) (cid : Bytes) (account : UInt32) (sized : cid.length = 32)
      (added : addedEntry P market st item = some (cid ++ u32Bytes account))
      (same : Untouched market st mid)
      (next : (deliver P st item).1 = recordCommit item.slot mid market cid account)
  | carry (mid : Storage) (cid : Bytes) (account : UInt32) (sized : cid.length = 32)
      (added : addedEntry P market st item = some (cid ++ u32Bytes account))
      (admitted : Carry.admitEntry st (.commits market) market
        (carryEntry cid account) = (true, mid))
      (next : (deliver P st item).1 =
        cageAdd (gcCommits mid market item.slot) market cid account item.slot)
  | consume (mid : Storage) (targets : Bytes) (added : addedEntry P market st item = none)
      (consumed : consumedEntries P market st item = records setEntryLen targets)
      (taken : consumeSet st (.commits market) targets = (true, mid))
      (same : Untouched market (cagePurge mid market targets) (deliver P st item).1)

theorem commitEdit_item {tag : Tag} (hdeliver : deliver P st item = (st', .accepted))
    (htag : tagOf (refine P item.payload.val) = some tag) (hround : tag.isRound = false)
    (hstep : ItemStep P item.slot st (refine P item.payload.val) st') :
    CommitEdit P market st item := by
  by_cases hmine : (tag = .commit ∨ tag = .carryCommit) ∧
      u32At (refine P item.payload.val) 1 = market
  · obtain ⟨hkind, hmarket⟩ := hmine
    have hadded : addedEntry P market st item = some (slice (refine P item.payload.val) 9 41 ++
        u32Bytes (u32At (refine P item.payload.val) 5)) := by
      simp only [addedEntry, hdeliver, htag]
      rcases hkind with rfl | rfl <;> exact if_pos hmarket
    have hcid : 41 ≤ (refine P item.payload.val).length →
        (slice (refine P item.payload.val) 9 41).length = 32 := fun hlen ↦ length_slice _ _ _ hlen
    rcases hkind with rfl | rfl
    · cases hstep with
      | commit tagged sized owner admitted =>
        rw [hmarket] at hdeliver
        refine .commit _ _ _ (hcid ?_) hadded
          (.of_frame (frame_admitCommit admitted) (by simp) (by simp)) (by rw [hdeliver])
        rw [sized]
        decide
      | round isRound step =>
        cases htag.symm.trans step.tagged
        cases isRound
      | _ => cases htag.symm.trans (by assumption)
    · cases hstep with
      | carryCommit tagged sized admitted =>
        rw [hmarket] at admitted hdeliver
        exact .carry _ _ _ (hcid sized) hadded admitted (by rw [hdeliver])
      | round isRound step =>
        cases htag.symm.trans step.tagged
        cases isRound
      | _ => cases htag.symm.trans (by assumption)
  · have hother : tag = .commit ∨ tag = .carryCommit →
        market ≠ u32At (refine P item.payload.val) 1 :=
      fun hkind hm ↦ hmine ⟨hkind, hm.symm⟩
    have hframe : Frame (itemKeys tag (refine P item.payload.val)) st (deliver P st item).1 := by
      rw [hdeliver]
      exact hstep.frame htag
    refine .idle ?_ ?_ (.of_frame hframe ?_ ?_)
    · simp only [addedEntry, hdeliver, htag]
      cases tag with
      | commit => exact if_neg fun hm ↦ hmine ⟨Or.inl rfl, hm⟩
      | carryCommit => exact if_neg fun hm ↦ hmine ⟨Or.inr rfl, hm⟩
      | _ => rfl
    · simp only [consumedEntries, hdeliver, htag]
      cases tag with
      | reveal => cases hround
      | _ => rfl
    all_goals
      cases tag with
      | commit => simp [hother (Or.inl rfl)]
      | carryCommit => simp [hother (Or.inr rfl)]
      | smatch | reveal | encRound => cases hround
      | _ => simp

theorem commitEdit_round {mid : Storage} {inp : RoundInput} {floors : List (UInt32 × UInt64)}
    (hdeliver : deliver P st item = (st', .accepted))
    (hdelivery : RoundDelivery P st item inp floors mid st') : CommitEdit P market st item := by
  have hout := refine_of_roundInput hdelivery.input
  have htagged := hdelivery.step.tagged
  have hst : st' = (deliver P st item).1 := by rw [hdeliver]
  have hadded : addedEntry P market st item = none := by
    simp only [addedEntry, hdeliver, hout, htagged]
    cases inp.kind <;> rfl
  by_cases hmine : inp.kind.tag = .reveal ∧ inp.market = market
  · obtain ⟨hkind, rfl⟩ := hmine
    have hconsumed : consumedEntries P inp.market st item =
        records setEntryLen (inp.sections P (roundId P item.payload.val)).consumed := by
      simp only [consumedEntries, hdeliver, hout, htagged, hkind, hdelivery.step.parsed]
      exact if_pos (RoundDelivery.market_eq P inp _)
    have hconsumes := hdelivery.step.consumes
    have hfinish := hdelivery.step.frame_finish
    rw [RoundDelivery.market_eq] at hconsumes hfinish
    rw [hkind, consumeRound] at hconsumes
    split at hconsumes <;> cases hconsumes
    rename_i next hset
    refine .consume next _ hadded hconsumed hset (hst ▸ .of_frame hfinish ?_ ?_)
    all_goals simp
  · have hconsumed : consumedEntries P market st item = [] := by
      simp only [consumedEntries, hdeliver, hout, htagged, hdelivery.step.parsed]
      cases hkind : inp.kind with
      | reveal opened =>
        refine if_neg fun hm ↦ hmine ⟨by rw [hkind]; rfl, ?_⟩
        exact (RoundDelivery.market_eq P inp _).symm.trans hm
      | _ => rfl
    have hframe := hdelivery.step.frame_tag
    rw [RoundDelivery.market_eq] at hframe
    refine .idle hadded hconsumed (hst ▸ .of_frame hframe ?_ ?_)
    all_goals
      cases hkind : inp.kind with
      | reveal opened =>
        have hmarket : market ≠ inp.market := fun hm ↦ hmine ⟨by rw [hkind]; rfl, hm.symm⟩
        simp [RoundKind.tag, hmarket]
      | _ =>
        simp [RoundKind.tag]

variable (P market st item) in
/-- Every item is one of the edits. -/
theorem commitEdit : CommitEdit P market st item := by
  rcases deliver_cases P st item with hrefused | ⟨st', tag, hdeliver, htag, hround, hstep⟩ |
    ⟨st', inp, floors, mid, hdeliver, hdelivery⟩
  · refine .idle ?_ ?_ ?_
    · simp only [addedEntry, hrefused]
    · simp only [consumedEntries, hrefused]
    · rw [hrefused]
      exact ⟨rfl, rfl⟩
  · exact commitEdit_item hdeliver htag hround hstep
  · exact commitEdit_round hdeliver hdelivery

/-- Every item keeps set and index in step, and edits the aged entries as `ageStep` says. -/
theorem inStep_deliver {idx : List (Bytes × UInt32)} (h : InStep st market idx []) :
    InStep (deliver P st item).1 market (ageStep P market st item idx) [] ∧
      (consumedEntries P market st item).Subperm (idx.map Prod.fst) := by
  cases commitEdit P market st item with
  | idle added consumed same =>
    rw [ageStep_of_idle added consumed, consumed]
    exact ⟨h.of_untouched same, List.nil_subperm⟩
  | commit mid cid account sized added same next =>
    rw [next, consumedEntries_of_added added, ageStep, added]
    exact ⟨(h.of_untouched same).recordCommit sized, List.nil_subperm⟩
  | carry mid cid account sized added admitted next =>
    rw [next, consumedEntries_of_added added, ageStep, added]
    exact ⟨h.carryCommit sized admitted, List.nil_subperm⟩
  | consume mid targets added consumed taken same =>
    rw [ageStep, added, consumed]
    obtain ⟨hnext, hsubperm⟩ := h.consume taken
    exact ⟨hnext.of_untouched same, hsubperm⟩

/-- The stamps stay in order when the item's own is not before them. -/
theorem sorted_ageStep (hsorted : idx.Pairwise fun a b ↦ a.2 ≤ b.2)
    (hbefore : ∀ c ∈ idx, c.2 ≤ satAdd32 item.slot commitTtlSlots) :
    (ageStep P market st item idx).Pairwise fun a b ↦ a.2 ≤ b.2 := by
  unfold ageStep
  cases addedEntry P market st item with
  | none => exact hsorted.sublist (dropOldest_sublist _ _)
  | some e =>
    refine List.pairwise_append.mpr ⟨hsorted.sublist List.filter_sublist, by simp, ?_⟩
    intro a ha b hb
    rw [List.mem_singleton.mp hb]
    exact hbefore a (List.mem_of_mem_filter ha)

/-- An aged entry is one from before or the item's own. -/
theorem mem_ageStep (hc : c ∈ ageStep P market st item idx) :
    c ∈ idx ∨ c.2 = satAdd32 item.slot commitTtlSlots := by
  unfold ageStep at hc
  cases hadded : addedEntry P market st item with
  | none =>
    rw [hadded] at hc
    exact Or.inl ((dropOldest_sublist _ _).subset hc)
  | some e =>
    rw [hadded] at hc
    rcases List.mem_append.mp hc with hold | hnew
    · exact Or.inl (List.mem_of_mem_filter hold)
    · exact Or.inr (by rw [List.mem_singleton.mp hnew])

end Item

/-! ### The whole run -/

section Run

variable (P : Primitives) (market : UInt32) (items : List WorkItem) (e : Bytes)

/-- The slots at which a run from the empty storage adds the entry, in order. -/
def addedSlots : List ℕ :=
  issuedOver (fun st item ↦ (deliver P st item).1)
    (fun st item ↦ if addedEntry P market st item = some e then [item.slot.toNat] else [])
    Store.empty items

/-- How often its accepted reveals consume the entry. -/
def timesConsumed : ℕ :=
  totalOver (fun st item ↦ (deliver P st item).1)
    (fun st item ↦ (consumedEntries P market st item).count e) Store.empty items

/-- How often the entry is reaped. -/
def timesReaped : ℕ :=
  totalOver (fun st item ↦ (deliver P st item).1)
    (fun st item ↦ (reapedEntries P market st item).count e) Store.empty items

/-- The slots at which the copies were added that the run has neither consumed nor reaped, when
copies leave in the order they came. -/
def standingSlots : List ℕ :=
  (addedSlots P market items e).drop (timesConsumed P market items e + timesReaped P market items e)

/-- The aged entries after a run: in the order of their stamps, each stamped by an item of the run,
and for every entry exactly its standing copies. -/
structure Kept (idx : List (Bytes × UInt32)) : Prop where
  inStep : InStep (runItems P Store.empty items) market idx []
  sorted : idx.Pairwise fun a b ↦ a.2 ≤ b.2
  stamped : ∀ c ∈ idx, ∃ item ∈ items, c.2.toNat = item.slot.toNat + 3600
  within : ∀ e, timesConsumed P market items e + timesReaped P market items e ≤
    (addedSlots P market items e).length
  standing : ∀ e, (stampsOf idx e).map UInt32.toNat =
    (standingSlots P market items e).map (· + 3600)

variable {P market items e}

theorem addedSlots_concat (item : WorkItem) :
    addedSlots P market (items ++ [item]) e = addedSlots P market items e ++
      if addedEntry P market (runItems P Store.empty items) item = some e then [item.slot.toNat]
      else [] := issuedOver_concat _ _ _ _

theorem timesConsumed_concat (item : WorkItem) :
    timesConsumed P market (items ++ [item]) e = timesConsumed P market items e +
      (consumedEntries P market (runItems P Store.empty items) item).count e :=
  totalOver_concat _ _ _ _

theorem timesReaped_concat (item : WorkItem) :
    timesReaped P market (items ++ [item]) e = timesReaped P market items e +
      (reapedEntries P market (runItems P Store.empty items) item).count e :=
  totalOver_concat _ _ _ _

theorem inStep_empty (market : UInt32) : InStep Store.empty market [] [] :=
  ⟨by simp, by simp, rfl, [], rfl, List.Perm.refl _⟩

theorem inStep_runItems (P : Primitives) (market : UInt32) (items : List WorkItem) :
    ∃ idx, InStep (runItems P Store.empty items) market idx [] := by
  refine invariant_of_alongRun (C := fun _ _ ↦ True) (I := fun st ↦ ∃ idx, InStep st market idx [])
    ?_ ⟨[], inStep_empty market⟩ (alongRun_of_forall (fun _ _ ↦ trivial) _ items)
  rintro st item ⟨idx, h⟩ -
  exact ⟨_, (inStep_deliver h).1⟩

theorem kept_nil : Kept P market [] [] :=
  ⟨inStep_empty market, List.Pairwise.nil, by simp, fun _ ↦ Nat.le_refl _, fun _ ↦ rfl⟩

namespace Kept

variable {idx : List (Bytes × UInt32)}

section

variable (h : Kept P market items idx)

include h

/-- What an admission reaps of an entry are its copies with dead stamps. -/
theorem count_reaped (hadded : (addedEntry P market (runItems P Store.empty items) item).isSome)
    (e : Bytes) :
    (reapedEntries P market (runItems P Store.empty items) item).count e =
      (stampsOf idx e).countP fun expiry ↦ decide (expiry ≤ item.slot) := by
  rw [reapedEntries, if_pos hadded, h.inStep.records_reaped,
    count_dead fun expiry : UInt32 ↦ decide (expiry ≤ item.slot)]

theorem dead_of_dead (slot : UInt32) :
    idx.Pairwise fun a b ↦ decide (b.2 ≤ slot) = true → decide (a.2 ≤ slot) = true :=
  h.sorted.imp fun hab hb ↦ decide_eq_true (UInt32.le_trans hab (of_decide_eq_true hb))

/-- Reaped copies were added long enough ago. -/
theorem reaped_old (item : WorkItem) (e : Bytes) :
    ∀ slot ∈ (standingSlots P market items e).take
        ((reapedEntries P market (runItems P Store.empty items) item).count e),
      slot + 3600 ≤ item.slot.toNat := by
  intro slot hslot
  cases hadded : (addedEntry P market (runItems P Store.empty items) item).isSome with
  | false => simp [reapedEntries, hadded] at hslot
  | true =>
    rw [h.count_reaped hadded] at hslot
    have hmem := List.mem_map_of_mem (f := (· + 3600)) hslot
    rw [List.map_take, ← h.standing e, ← List.map_take] at hmem
    obtain ⟨expiry, hexpiry, heq⟩ := List.mem_map.mp hmem
    have hdead := dead_of_mem_take (pairwise_stampsOf
      (R := fun a b ↦ decide (b ≤ item.slot) = true → decide (a ≤ item.slot) = true)
      (h.dead_of_dead item.slot) e) hexpiry
    rw [← heq]
    exact UInt32.le_iff_toNat_le.mp (of_decide_eq_true hdead)

theorem length_standing (e : Bytes) :
    (stampsOf idx e).length = (standingSlots P market items e).length := by
  rw [← List.length_map (f := UInt32.toNat), h.standing e, List.length_map]

/-- An item takes at most what stands, of every entry. -/
theorem taken_le (item : WorkItem) (e : Bytes) :
    (consumedEntries P market (runItems P Store.empty items) item).count e +
        (reapedEntries P market (runItems P Store.empty items) item).count e ≤
      (standingSlots P market items e).length := by
  rw [← h.length_standing e]
  cases hadded : addedEntry P market (runItems P Store.empty items) item with
  | none =>
    have hconsumed := (@inStep_deliver P market _ item idx h.inStep).2.count_le e
    rw [← length_stampsOf] at hconsumed
    simpa [reapedEntries, hadded] using hconsumed
  | some e' =>
    rw [consumedEntries_of_added hadded, h.count_reaped (by simp [hadded]), List.count_nil,
      Nat.zero_add]
    exact List.countP_le_length

/-- One more item: what it takes leaves from the front, what it adds joins at the back. -/
theorem standingSlots_concat (item : WorkItem) (e : Bytes) :
    standingSlots P market (items ++ [item]) e =
      (standingSlots P market items e).drop
          ((consumedEntries P market (runItems P Store.empty items) item).count e +
            (reapedEntries P market (runItems P Store.empty items) item).count e) ++
        if addedEntry P market (runItems P Store.empty items) item = some e then [item.slot.toNat]
        else [] := by
  have hwithin := h.within e
  have htaken := h.taken_le item e
  rw [standingSlots, List.length_drop] at htaken
  rw [standingSlots, addedSlots_concat, timesConsumed_concat, timesReaped_concat,
    List.drop_append_of_le_length (by omega), standingSlots, List.drop_drop]
  congr 2
  omega

theorem concat (hlater : ∀ earlier ∈ items, earlier.slot ≤ item.slot)
    (hslot : item.slot.toNat < 2 ^ 32 - 3600) :
    Kept P market (items ++ [item]) (ageStep P market (runItems P Store.empty items) item idx) := by
  have hexpiry : (satAdd32 item.slot commitTtlSlots).toNat = item.slot.toNat + 3600 := by
    have httl : commitTtlSlots.toNat = 3600 := rfl
    rw [toNat_satAdd32, httl]
    omega
  have hbefore : ∀ c ∈ idx, c.2 ≤ satAdd32 item.slot commitTtlSlots := by
    intro c hc
    obtain ⟨x, hx, hstamp⟩ := h.stamped c hc
    rw [UInt32.le_iff_toNat_le, hstamp, hexpiry]
    exact Nat.add_le_add_right (UInt32.le_iff_toNat_le.mp (hlater x hx)) _
  refine ⟨?_, sorted_ageStep h.sorted hbefore, fun c hc ↦ ?_, fun e ↦ ?_, fun e ↦ ?_⟩
  · rw [runItems_concat]
    exact (inStep_deliver h.inStep).1
  · rcases mem_ageStep hc with hold | hnew
    · obtain ⟨x, hx, hstamp⟩ := h.stamped c hold
      exact ⟨x, List.mem_append_left _ hx, hstamp⟩
    · exact ⟨item, by simp, by rw [hnew, hexpiry]⟩
  · have hwithin := h.within e
    have htaken := h.taken_le item e
    rw [standingSlots, List.length_drop] at htaken
    rw [addedSlots_concat, timesConsumed_concat, timesReaped_concat, List.length_append]
    omega
  · have hstanding := h.standingSlots_concat item e
    cases hadded : addedEntry P market (runItems P Store.empty items) item with
    | none =>
      rw [hstanding, ageStep, hadded]
      simp only [stampsOf_dropOldest, List.map_drop]
      rw [if_neg (by simp), List.append_nil, h.standing e]
      simp [reapedEntries, hadded]
    | some e' =>
      have hlive := @stampsOf_filter_live _ _ _ (fun expiry : UInt32 ↦ decide (expiry ≤ item.slot))
        idx (h.dead_of_dead item.slot) e
      rw [hstanding, ageStep, hadded, consumedEntries_of_added hadded,
        h.count_reaped (by simp [hadded]), List.count_nil, Nat.zero_add]
      simp only [stampsOf_append, List.map_append, hlive, List.map_drop, h.standing e,
        stampsOf_cons]
      by_cases he : e' = e
      · simp [he, hexpiry, stampsOf]
      · simp [he, stampsOf]

end

/-- After an admission only live copies stand. -/
theorem standing_live
    (h : Kept P market (items ++ [item]) (ageStep P market (runItems P Store.empty items) item idx))
    (hadded : (addedEntry P market (runItems P Store.empty items) item).isSome)
    (hslot : item.slot.toNat < 2 ^ 32 - 3600) (e : Bytes) :
    ∀ slot ∈ standingSlots P market (items ++ [item]) e, item.slot.toNat < slot + 3600 := by
  intro slot hmem
  have hstamp := List.mem_map_of_mem (f := (· + 3600)) hmem
  rw [← h.standing e, List.mem_map] at hstamp
  obtain ⟨expiry, hexpiry, heq⟩ := hstamp
  rw [← heq]
  obtain ⟨c, hc, rfl⟩ := List.mem_map.mp hexpiry
  obtain ⟨e', he'⟩ := Option.isSome_iff_exists.mp hadded
  have hmem := List.mem_of_mem_filter hc
  rw [ageStep, he'] at hmem
  rcases List.mem_append.mp hmem with hlive | hnew
  · have hlive := (List.mem_filter.mp hlive).2
    rw [Bool.not_eq_true', decide_eq_false_iff_not] at hlive
    exact UInt32.lt_iff_toNat_lt.mp (UInt32.not_le.mp hlive)
  · rw [List.mem_singleton.mp hnew, toNat_satAdd32]
    have httl : commitTtlSlots.toNat = 3600 := rfl
    omega

end Kept

/-- The aged entries of every run with non-decreasing slots that leave room for the expiry. -/
theorem exists_kept (hsorted : items.Pairwise fun a b ↦ a.slot ≤ b.slot)
    (hslots : ∀ item ∈ items, item.slot.toNat < 2 ^ 32 - 3600) :
    ∃ idx, Kept P market items idx := by
  induction items using List.reverseRecOn with
  | nil => exact ⟨[], kept_nil⟩
  | append_singleton items item ih =>
    obtain ⟨hearlier, -, hlater⟩ := List.pairwise_append.mp hsorted
    obtain ⟨idx, hkept⟩ := ih hearlier fun x hx ↦ hslots x (List.mem_append_left _ hx)
    exact ⟨_, hkept.concat (fun x hx ↦ hlater x hx item (by simp)) (hslots item (by simp))⟩

end Run

/-- Commitments are neither lost nor reused. Over any run with non-decreasing slots that leave room
for the expiry, every entry was added as often as it was consumed, was reaped and is now present;
copies leave in the order they came, and of those an item reaps each was added at least 3600 slots
before; and right after an admission no copy added that long ago stands. -/
theorem commitments_conserved (P : Primitives) (market : UInt32) (items : List WorkItem)
    (hsorted : items.Pairwise fun a b ↦ a.slot ≤ b.slot)
    (hslots : ∀ item ∈ items, item.slot.toNat < 2 ^ 32 - 3600) (e : Bytes) :
    (addedSlots P market items e).length =
        timesConsumed P market items e + timesReaped P market items e +
          (records setEntryLen ((runItems P Store.empty items).getD (.commits market))).count e ∧
      ∀ before item after, items = before ++ item :: after →
        (∀ slot ∈ (standingSlots P market before e).take
            ((reapedEntries P market (runItems P Store.empty before) item).count e),
          slot + 3600 ≤ item.slot.toNat) ∧
        ((addedEntry P market (runItems P Store.empty before) item).isSome →
          ∀ slot ∈ standingSlots P market (before ++ [item]) e,
            item.slot.toNat < slot + 3600) := by
  constructor
  · obtain ⟨idx, hkept⟩ := @exists_kept P market items hsorted hslots
    have hwithin := hkept.within e
    rw [hkept.inStep.count_commits, hkept.length_standing, standingSlots, List.length_drop,
      List.count_nil]
    omega
  · rintro before item after rfl
    obtain ⟨hearlier, -, hlater⟩ := List.pairwise_append.mp hsorted
    obtain ⟨idx, hkept⟩ := @exists_kept P market before hearlier
      fun x hx ↦ hslots x (List.mem_append_left _ hx)
    have hslot := hslots item (by simp)
    refine ⟨hkept.reaped_old item e, fun hadded ↦ ?_⟩
    exact (hkept.concat (fun x hx ↦ hlater x hx item (by simp)) hslot).standing_live hadded hslot e

/-- The first registration, at slot 1. -/
def firstRegistration : WorkItem :=
  ⟨1, ⟨[Tag.register.byte] ++ List.replicate 32 3 ++ List.replicate 64 0, by decide +kernel⟩⟩

/-- A commit of the account registered first, to the hash, on market 0. -/
def firstOwnersCommit (slot : UInt32) (hash : Bytes32) (seq : UInt64) : WorkItem :=
  ⟨slot, ⟨[Tag.commit.byte] ++ u32Bytes 0 ++ u32Bytes 1 ++ hash.val ++ u64Bytes seq ++
    List.replicate 64 0 ++ List.replicate 32 3, by simp [maxInput]⟩⟩

/-- A registration and three commits to one order, the last after the first has expired. -/
def agingRun : List WorkItem :=
  let hash := FixedBytes.ofBytes 32 (List.replicate 32 7)
  [firstRegistration, firstOwnersCommit 5 hash 1, firstOwnersCommit 10 hash 2,
    firstOwnersCommit 3606 hash 3]

theorem commitments_conserved_agingRun :
    addedSlots Primitives.toy 0 agingRun (List.replicate 32 7 ++ u32Bytes 1) = [5, 10, 3606] ∧
      timesReaped Primitives.toy 0 agingRun (List.replicate 32 7 ++ u32Bytes 1) = 1 ∧
      (records setEntryLen ((runItems Primitives.toy Store.empty agingRun).getD (.commits 0))).count
        (List.replicate 32 7 ++ u32Bytes 1) = 2 := by
  have hadded : addedSlots Primitives.toy 0 agingRun (List.replicate 32 7 ++ u32Bytes 1) =
      [5, 10, 3606] := by decide +kernel
  have hreaped : timesReaped Primitives.toy 0 agingRun (List.replicate 32 7 ++ u32Bytes 1) = 1 := by
    decide +kernel
  have hconsumed : timesConsumed Primitives.toy 0 agingRun
      (List.replicate 32 7 ++ u32Bytes 1) = 0 := by
    decide +kernel
  have hcount := (commitments_conserved Primitives.toy 0 agingRun (by decide +kernel)
    (by decide +kernel) (List.replicate 32 7 ++ u32Bytes 1)).1
  rw [hadded, hconsumed, hreaped] at hcount
  refine ⟨hadded, hreaped, ?_⟩
  simp only [List.length_cons, List.length_nil] at hcount
  omega

end Jamswap.Service
