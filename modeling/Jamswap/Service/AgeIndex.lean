import Jamswap.Service.CommitSets

/-!
# The age index lists the commit set

`InStep` leaves the order of a market's commit set open. With non-decreasing slots it is the order
of the index: the entries that have expired are the oldest of both, so reaping cuts the same front
off the set that it cuts off the index, also while a re-seal waits at the back of the set for its
line in the index (`Aligned.gc`); and consumption takes the first copy from either. `Ordered` holds
over every run whose slots do not decrease, the saturated end of the clock included
(`exists_ordered`), and gives the sequences byte for byte (`age_index_lists_commits`).
-/

namespace Jamswap.Service

open Library Engine Storage

/-- Set and index are in step, and the set lists its entries in the order of the index. -/
structure Aligned (st : Storage) (market : UInt32) (idx : List (Bytes × UInt32))
    (extra : List Bytes) : Prop extends InStep st market idx extra where
  listed : st.getD (.commits market) = (idx.map Prod.fst ++ extra).flatten

/-! ### The edits -/

namespace Aligned

variable {st st' : Storage} {market : UInt32} {idx : List (Bytes × UInt32)} {extra : List Bytes}

theorem of_untouched (h : Aligned st market idx extra) (hsame : Untouched market st st') :
    Aligned st' market idx extra :=
  ⟨h.toInStep.of_untouched hsame, hsame.commits.trans h.listed⟩

theorem append (h : Aligned st market idx []) {entry : Bytes} (hlen : entry.length = setEntryLen) :
    Aligned (st.set (.commits market) (st.getD (.commits market) ++ entry)) market idx [entry] := by
  refine ⟨h.toInStep.append hlen, ?_⟩
  rw [getD_set_same, h.listed, List.append_nil, List.flatten_append, List.flatten_singleton]

/-- Reaping cuts the same front off both. -/
theorem gc (h : Aligned st market idx extra) (hsorted : idx.Pairwise fun a b ↦ a.2 ≤ b.2)
    (slot : UInt32) :
    Aligned (gcCommits st market slot) market (idx.filter fun c ↦ !decide (c.2 ≤ slot)) extra := by
  refine ⟨h.toInStep.gc slot, ?_⟩
  have horder : idx.Pairwise fun a b ↦ decide (b.2 ≤ slot) → decide (a.2 ≤ slot) :=
    hsorted.imp fun hab hb ↦ decide_eq_true (UInt32.le_trans hab (of_decide_eq_true hb))
  have hfront : (idx.filter fun c ↦ decide (c.2 ≤ slot)).map Prod.fst ++
      (idx.filter fun c ↦ !decide (c.2 ≤ slot)).map Prod.fst = idx.map Prod.fst := by
    rw [← List.map_append,
      @filter_dead_append_live _ _ (fun expiry ↦ decide (expiry ≤ slot)) _ horder]
  have hreaped := h.toInStep.records_reaped slot
  have hwidth : ∀ e ∈ idx.map Prod.fst ++ extra, e.length = setEntryLen :=
    h.entries_width (List.Perm.refl _)
  simp only [gcCommits]
  split_ifs with hnone
  · -- with nothing to reap, the front is empty
    rw [List.isEmpty_iff.mp hnone, records_nil] at hreaped
    rw [h.listed, ← hfront, ← hreaped, List.nil_append]
  · rw [getD_set_same, getD_set_ne _ _ (by simp), h.listed, removeFirstMatch_set hwidth, hreaped,
      ← hfront, List.append_assoc, append_diff_left]

theorem consume (h : Aligned st market idx []) {consumed : Bytes}
    (hconsume : consumeSet st (.commits market) consumed = (true, st')) :
    Aligned (cagePurge st' market consumed) market
      (dropOldest idx (records setEntryLen consumed)) [] := by
  refine ⟨(h.toInStep.consume hconsume).1, ?_⟩
  obtain ⟨rest, hrest, rfl⟩ := consumeSet_eq_true hconsume
  rw [h.listed, records_flatten (by decide) (h.entries_width (List.Perm.refl _)),
    List.append_nil] at hrest
  rw [cagePurge, getD_set_ne _ _ (by simp), getD_set_same, eq_diff_of_consume hrest,
    map_fst_dropOldest, List.append_nil]

/-- The set and the index are in step after the item whatever the order; what is left is that the
set lists the entries. -/
theorem deliver {P : Primitives} {item : WorkItem} (h : Aligned st market idx [])
    (hsorted : idx.Pairwise fun a b ↦ a.2 ≤ b.2) :
    Aligned (deliver P st item).1 market (ageStep P market st item idx) [] := by
  refine ⟨(inStep_deliver h.toInStep).1, ?_⟩
  cases commitEdit P market st item with
  | idle added consumed same =>
    rw [ageStep_of_idle added consumed]
    exact (h.of_untouched same).listed
  | commit mid cid account sized added same next =>
    have hreaped := ((h.of_untouched same).gc hsorted item.slot).listed
    rw [next, ageStep, added, recordCommit, cageAdd, getD_set_ne _ _ (by simp), getD_set_same,
      hreaped]
    simp
  | carry mid cid account sized added admitted next =>
    obtain ⟨paid, hpaid, rfl⟩ := admitEntry_commits sized admitted
    have happend := (h.of_untouched hpaid).append (length_entry sized account)
    rw [next, ageStep, added, cageAdd, getD_set_ne _ _ (by simp),
      (happend.gc hsorted item.slot).listed]
    simp
  | consume mid targets added consumed taken same =>
    rw [ageStep, added, consumed]
    exact ((h.consume taken).of_untouched same).listed

end Aligned

/-! ### The whole run -/

section Run

variable (P : Primitives) (market : UInt32) (items : List WorkItem)

/-- The aged entries after a run: aligned, in the order of their stamps, each stamped by an item of
the run. -/
structure Ordered (idx : List (Bytes × UInt32)) : Prop where
  aligned : Aligned (runItems P Store.empty items) market idx []
  sorted : idx.Pairwise fun a b ↦ a.2 ≤ b.2
  stamped : ∀ c ∈ idx, ∃ item ∈ items, c.2 = satAdd32 item.slot commitTtlSlots

variable {P market items}

/-- Later slots expire later, or together at the end of the clock. -/
theorem satAdd32_mono {slot slot' : UInt32} (h : slot ≤ slot') (ttl : UInt32) :
    satAdd32 slot ttl ≤ satAdd32 slot' ttl := by
  rw [UInt32.le_iff_toNat_le] at h ⊢
  rw [toNat_satAdd32, toNat_satAdd32]
  omega

theorem Ordered.concat {idx : List (Bytes × UInt32)} (h : Ordered P market items idx)
    {item : WorkItem} (hlater : ∀ earlier ∈ items, earlier.slot ≤ item.slot) :
    Ordered P market (items ++ [item])
      (ageStep P market (runItems P Store.empty items) item idx) := by
  have hbefore : ∀ c ∈ idx, c.2 ≤ satAdd32 item.slot commitTtlSlots := by
    intro c hc
    obtain ⟨earlier, hearlier, hstamp⟩ := h.stamped c hc
    rw [hstamp]
    exact satAdd32_mono (hlater earlier hearlier) _
  constructor
  · rw [runItems_concat]
    exact h.aligned.deliver h.sorted
  · exact sorted_ageStep h.sorted hbefore
  · intro c hc
    rcases mem_ageStep hc with hold | hnew
    · obtain ⟨earlier, hearlier, hstamp⟩ := h.stamped c hold
      exact ⟨earlier, List.mem_append_left _ hearlier, hstamp⟩
    · exact ⟨item, by simp, hnew⟩

theorem exists_ordered (hsorted : items.Pairwise fun a b ↦ a.slot ≤ b.slot) :
    ∃ idx, Ordered P market items idx := by
  induction items using List.reverseRecOn with
  | nil =>
    exact ⟨[], ⟨inStep_empty market, rfl⟩, List.Pairwise.nil, by simp⟩
  | append_singleton items item ih =>
    obtain ⟨hearlier, -, hlater⟩ := List.pairwise_append.mp hsorted
    obtain ⟨idx, hordered⟩ := ih hearlier
    exact ⟨_, hordered.concat fun x hx ↦ hlater x hx item (by simp)⟩

end Run

/-- The age index lists the commit set. After any run with non-decreasing slots, the 36-byte
prefixes of the records of a market's index are the entries of its set, in the same order, and the
expiry slots in the index do not decrease. -/
theorem age_index_lists_commits (P : Primitives) (items : List WorkItem)
    (hsorted : items.Pairwise fun a b ↦ a.slot ≤ b.slot) (market : UInt32) :
    (records cageEntryLen ((runItems P Store.empty items).getD (.cage market))).map
          (List.take setEntryLen) =
        records setEntryLen ((runItems P Store.empty items).getD (.commits market)) ∧
      ((records cageEntryLen ((runItems P Store.empty items).getD (.cage market))).map
        fun e ↦ u32At e setEntryLen).Pairwise (· ≤ ·) := by
  obtain ⟨idx, haligned, hordered, -⟩ := @exists_ordered P market items hsorted
  rw [haligned.cage, records_cage haligned.width, List.map_map, List.map_map]
  constructor
  · rw [haligned.listed, records_flatten (by decide) (haligned.entries_width (List.Perm.refl _)),
      List.append_nil]
    exact List.map_congr_left fun c hc ↦ take_cageRecord (haligned.width c hc)
  · have hexpiries : idx.map ((fun e ↦ u32At e setEntryLen) ∘ cageRecord) = idx.map Prod.snd :=
      List.map_congr_left fun c hc ↦ u32At_cageRecord (haligned.width c hc)
    rw [hexpiries, List.pairwise_map]
    exact hordered

theorem age_index_lists_commits_agingRun :
    (records setEntryLen ((runItems Primitives.toy Store.empty agingRun).getD
      (.commits 0))).length =
        2 ∧
      (records cageEntryLen ((runItems Primitives.toy Store.empty agingRun).getD (.cage 0))).map
          (List.take setEntryLen) =
        records setEntryLen ((runItems Primitives.toy Store.empty agingRun).getD (.commits 0)) := by
  constructor
  · decide +kernel
  · exact (age_index_lists_commits Primitives.toy agingRun (by decide +kernel) 0).1

end Jamswap.Service
