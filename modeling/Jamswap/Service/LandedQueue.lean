import Jamswap.Library.Aging
import Jamswap.Service.RuleSpecs

/-!
# The queue of landed rounds

`markLanded` keeps three families of keys: a marker per round, a queue of filings in slot order, and
the queue's bounds. `QueueAt` says that the queue keys hold a list of filings, numbered from the
head, and that every marker is one of them. A filing drops expired entries from the front, at most
four, each with its marker unless a newer filing of the same round overwrote it, and appends its own
(`Landed.file`). A marker younger than its time to live survives (`landedSlot_markLanded_other`).

The numbers are 64 bits wide: after `2 ^ 64` filings the tail has come round, and the bounds no
longer say which keys are there (`landedBounds_wrap`).
-/

namespace Jamswap.Service

open Library Engine Storage

/-- A filed round: its id and the slot it landed in. -/
abbrev Filing := Bytes32 × UInt32

/-- Head and tail of the queue, as `markLanded` reads them. -/
def landedBounds (st : Storage) : UInt64 × UInt64 :=
  match (st.get .rlh).filter fun v ↦ 16 ≤ v.length with
  | some v => (u64At v 0, u64At v 8)
  | none => (0, 0)

/-- The bytes of a queue entry: id ‖ slot. -/
def queueEntry (f : Filing) : Bytes := f.1.val ++ u32Bytes f.2

/-- The time of the entry is up at the slot. -/
def expiredAt (slot : UInt32) (f : Filing) : Bool := !decide (slot < satAdd32 f.2 landedTtlSlots)

/-- The storage after a sequence of filings. -/
def fileAll (st : Storage) (filings : List Filing) : Storage :=
  filings.foldl (fun st f ↦ markLanded st f.1 f.2) st

/-- The queue keys hold the filings `q`, numbered from `head`, and every marker is one of them. -/
structure QueueAt (st : Storage) (head : ℕ) (q : List Filing) : Prop where
  fits : head + q.length < 2 ^ 64
  entry : ∀ n : UInt64, st.get (.rlq n) =
    if n.toNat < head then none else q[n.toNat - head]?.map queueEntry
  marked : ∀ rid s, landedSlot st rid = some s → (rid, s) ∈ q

/-! ### Bytes of an entry -/

section Entry

variable (f : Filing)

@[simp] theorem length_queueEntry : (queueEntry f).length = 36 := by
  rw [queueEntry, List.length_append, FixedBytes.length_val, length_u32Bytes]

theorem cursor_queueEntry : Cursor (queueEntry f) 0 f.1.val (u32Bytes f.2 ++ []) := by
  rw [List.append_nil]
  exact Cursor.start _ _

theorem u32At_queueEntry : u32At (queueEntry f) 32 = f.2 :=
  ((cursor_queueEntry f).next (j := 32) (by simp)).u32At_eq

theorem ofBytes_queueEntry : FixedBytes.ofBytes 32 (slice (queueEntry f) 0 32) = f.1 := by
  rw [(cursor_queueEntry f).slice_eq (by simp), FixedBytes.ofBytes_val]

end Entry

variable {slot s : UInt32} {rid rid' : Bytes32}

theorem expiredAt_eq_false {f : Filing} :
    expiredAt slot f = false ↔ slot < satAdd32 f.2 landedTtlSlots := by
  simp [expiredAt]

/-! ### Reaping -/

section Reap

variable {st : Storage} {head : ℕ} {q : List Filing} {f : Filing} {slot : UInt32}

theorem landedSlot_del_ne (h : rid' ≠ rid) :
    landedSlot (st.del (.rl rid)) rid' = landedSlot st rid' := by
  have hget : (st.del (.rl rid)).get (.rl rid') = st.get (.rl rid') :=
    get_set_ne st [] (by simpa using h)
  rw [landedSlot, getU32?, hget]
  rfl

theorem landedSlot_del_same (rid : Bytes32) : landedSlot (st.del (.rl rid)) rid = none := by
  have hget : (st.del (.rl rid)).get (.rl rid) = none := (get_set st _ _ []).trans (if_pos rfl)
  rw [landedSlot, getU32?, hget]
  rfl

theorem landedSlot_del_rlq (n : UInt64) (rid : Bytes32) :
    landedSlot (st.del (.rlq n)) rid = landedSlot st rid := by
  have hget : (st.del (.rlq n)).get (.rl rid) = st.get (.rl rid) := get_set_ne st [] (by simp)
  rw [landedSlot, getU32?, hget]
  rfl

/-- The storage after dropping the head entry. -/
def dropHead (st : Storage) (head : ℕ) (f : Filing) : Storage :=
  (if landedSlot st f.1 = some f.2 then st.del (.rl f.1) else st).del (.rlq (UInt64.ofNat head))

theorem QueueAt.dropHead (h : QueueAt st head (f :: q)) :
    QueueAt (dropHead st head f) (head + 1) q := by
  have hfits := h.fits
  rw [List.length_cons] at hfits
  have hhead : (UInt64.ofNat head).toNat = head := by
    rw [UInt64.toNat_ofNat', Nat.mod_eq_of_lt (by omega)]
  constructor
  · omega
  · intro n
    have hother : (if landedSlot st f.1 = some f.2 then st.del (.rl f.1) else st).get (.rlq n) =
        st.get (.rlq n) := by
      split_ifs
      · exact get_set_ne st [] (by simp)
      · rfl
    rw [Service.dropHead]
    by_cases hn : n = UInt64.ofNat head
    · rw [hn, hhead, if_pos (Nat.lt_succ_self head)]
      exact (get_set _ _ _ []).trans (if_pos rfl)
    · have hne : n.toNat ≠ head := fun heq ↦ hn (by rw [← heq, UInt64.ofNat_toNat])
      have hkey : Key.rlq n ≠ Key.rlq (UInt64.ofNat head) := by simpa using hn
      have hget := get_set_ne
        (if landedSlot st f.1 = some f.2 then st.del (.rl f.1) else st) [] hkey
      refine (hget.trans hother).trans ((h.entry n).trans ?_)
      by_cases hlt : n.toNat < head
      · rw [if_pos hlt, if_pos (by omega)]
      · rw [if_neg hlt, if_neg (by omega)]
        obtain ⟨i, hi⟩ : ∃ i, n.toNat - head = i + 1 := ⟨n.toNat - head - 1, by omega⟩
        rw [hi, List.getElem?_cons_succ, show n.toNat - (head + 1) = i by omega]
  · intro rid s hs
    rw [Service.dropHead, landedSlot_del_rlq] at hs
    split_ifs at hs with hmark
    · by_cases hrid : rid = f.1
      · rw [hrid, landedSlot_del_same] at hs
        cases hs
      · rw [landedSlot_del_ne hrid] at hs
        rcases List.mem_cons.mp (h.marked rid s hs) with heq | hmem
        · exact absurd (congrArg Prod.fst heq) hrid
        · exact hmem
    · rcases List.mem_cons.mp (h.marked rid s hs) with heq | hmem
      · rw [← heq] at hmark
        exact absurd hs hmark
      · exact hmem

/-- One step of the walk. -/
theorem reapLanded_cons {tail : UInt64} {steps : ℕ} (h : QueueAt st head (f :: q))
    (htail : UInt64.ofNat head < tail) :
    reapLanded slot tail (steps + 1) (UInt64.ofNat head) st =
      if slot < satAdd32 f.2 landedTtlSlots then (UInt64.ofNat head, st)
      else reapLanded slot tail steps (UInt64.ofNat (head + 1)) (dropHead st head f) := by
  have hfits := h.fits
  rw [List.length_cons] at hfits
  have hget : (st.get (.rlq (UInt64.ofNat head))).filter (fun e ↦ 36 ≤ e.length) =
      some (queueEntry f) := by
    rw [h.entry, UInt64.toNat_ofNat', Nat.mod_eq_of_lt (by omega), if_neg (Nat.lt_irrefl head),
      Nat.sub_self]
    simp
  rw [reapLanded, if_pos htail, hget, UInt64.ofNat_add]
  simp only [u32At_queueEntry, ofBytes_queueEntry]
  rfl

/-- A walk drops the dead front of the queue. -/
theorem reapLanded_spec (steps : ℕ) (h : QueueAt st head q) :
    ∃ st', reapLanded slot (UInt64.ofNat (head + q.length)) steps (UInt64.ofNat head) st =
        (UInt64.ofNat (head + frontDead (expiredAt slot) steps q), st') ∧
      QueueAt st' (head + frontDead (expiredAt slot) steps q)
        (q.drop (frontDead (expiredAt slot) steps q)) := by
  induction steps generalizing st head q with
  | zero => exact ⟨st, rfl, by simpa [frontDead] using h⟩
  | succ steps ih =>
    have hfits := h.fits
    cases q with
    | nil =>
      refine ⟨st, ?_, by simpa [frontDead] using h⟩
      rw [reapLanded, if_neg (by simp [UInt64.lt_irrefl])]
      simp [frontDead]
    | cons f q =>
      rw [List.length_cons] at hfits
      have htail : UInt64.ofNat head < UInt64.ofNat (head + (f :: q).length) := by
        rw [UInt64.lt_iff_toNat_lt, UInt64.toNat_ofNat', UInt64.toNat_ofNat', List.length_cons,
          Nat.mod_eq_of_lt (by omega), Nat.mod_eq_of_lt (by omega)]
        omega
      rw [reapLanded_cons h htail]
      cases hdead : expiredAt slot f with
      | false =>
        rw [if_pos (expiredAt_eq_false.mp hdead), frontDead_cons_live hdead]
        exact ⟨st, rfl, h⟩
      | true =>
        have hold : ¬ slot < satAdd32 f.2 landedTtlSlots := fun hlive ↦ by
          rw [expiredAt_eq_false.mpr hlive] at hdead
          cases hdead
        have hnext := ih h.dropHead
        rw [Nat.add_right_comm head 1, Nat.add_right_comm head 1] at hnext
        rw [if_neg hold, frontDead_cons_dead hdead, List.drop_succ_cons, List.length_cons,
          ← Nat.add_assoc, ← Nat.add_assoc]
        exact hnext

/-- A walk keeps every marker whose time is not up. -/
theorem landedSlot_reapLanded (tail : UInt64) (steps : ℕ) (head : UInt64)
    (h : landedSlot st rid = some s) (hlive : slot < satAdd32 s landedTtlSlots) :
    landedSlot (reapLanded slot tail steps head st).2 rid = some s := by
  induction steps generalizing head st with
  | zero => exact h
  | succ steps ih =>
    rw [reapLanded]
    split_ifs
    · cases (st.get (.rlq head)).filter fun e ↦ 36 ≤ e.length with
      | none =>
        apply ih
        rw [landedSlot_del_rlq]
        exact h
      | some e =>
        simp only []
        split_ifs with hyoung hmark
        · exact h
        · apply ih
          rw [landedSlot_del_rlq, landedSlot_del_ne, h]
          -- the marker dropped is an old one, and `rid`'s is not
          rintro rfl
          rw [h, Option.some.injEq] at hmark
          exact hyoung (hmark ▸ hlive)
        · apply ih
          rw [landedSlot_del_rlq]
          exact h
    · exact h

end Reap

/-! ### Filing -/

section File

variable {st : Storage} {head : ℕ} {q : List Filing}

/-- The storage files the queue `q` from `head`, in slot order. -/
structure Landed (st : Storage) (head : ℕ) (q : List Filing) : Prop extends QueueAt st head q where
  bounds : landedBounds st = (UInt64.ofNat head, UInt64.ofNat (head + q.length))
  sorted : q.Pairwise fun f f' ↦ f.2 ≤ f'.2

theorem landedBounds_set_rlh (st : Storage) (head tail : UInt64) :
    landedBounds (st.set .rlh (u64Bytes head ++ u64Bytes tail)) = (head, tail) := by
  have hlen : (u64Bytes head ++ u64Bytes tail).length = 16 := by simp
  have hget : (st.set .rlh (u64Bytes head ++ u64Bytes tail)).get .rlh =
      some (u64Bytes head ++ u64Bytes tail) := by
    rw [get_set, if_pos rfl, if_neg]
    rw [List.isEmpty_iff, ← List.length_eq_zero_iff, hlen]
    decide
  have hcursor : Cursor (u64Bytes head ++ u64Bytes tail) 0 (u64Bytes head)
      (u64Bytes tail ++ []) := by
    rw [List.append_nil]
    exact Cursor.start _ _
  unfold landedBounds
  rw [hget, Option.filter_some, if_pos (by simp)]
  exact Prod.ext hcursor.u64At_eq (hcursor.next (j := 8) (by simp)).u64At_eq

theorem markLanded_eq (st : Storage) (rid : Bytes32) (slot : UInt32) :
    markLanded st rid slot =
      let reaped := reapLanded slot (landedBounds st).2 gcSteps (landedBounds st).1 st
      ((reaped.2.set (.rl rid) (u32Bytes slot)).set (.rlq (landedBounds st).2)
        (queueEntry (rid, slot))).set .rlh
          (u64Bytes reaped.1 ++ u64Bytes ((landedBounds st).2 + 1)) := rfl

/-- Another round's marker. -/
theorem landedSlot_writes {st : Storage} (h : rid' ≠ rid) (v e b : Bytes) (n : UInt64) :
    landedSlot (((st.set (.rl rid) v).set (.rlq n) e).set .rlh b) rid' = landedSlot st rid' := by
  rw [landedSlot, getU32?, get_set_ne _ _ (by simp), get_set_ne _ _ (by simp),
    get_set_ne _ _ (by simpa using h)]
  rfl

/-- Filing another round keeps a marker whose time is not up. -/
theorem landedSlot_markLanded_other (hrid : rid' ≠ rid) (h : landedSlot st rid' = some s)
    (hlive : slot < satAdd32 s landedTtlSlots) :
    landedSlot (markLanded st rid slot) rid' = some s := by
  rw [markLanded_eq]
  simp only []
  rw [landedSlot_writes hrid]
  exact landedSlot_reapLanded _ _ _ h hlive

/-- A new entry joins at the back. -/
theorem QueueAt.push (h : QueueAt st head q) (hroom : head + q.length + 1 < 2 ^ 64)
    (rid : Bytes32) (slot : UInt32) (b : Bytes) :
    QueueAt (((st.set (.rl rid) (u32Bytes slot)).set (.rlq (UInt64.ofNat (head + q.length)))
      (queueEntry (rid, slot))).set .rlh b) head (q ++ [(rid, slot)]) where
  fits := by
    rw [List.length_append, List.length_singleton]
    omega
  entry n := by
    have hlast : (UInt64.ofNat (head + q.length)).toNat = head + q.length := by
      rw [UInt64.toNat_ofNat', Nat.mod_eq_of_lt (by omega)]
    rw [get_set_ne _ _ (by simp), get_set]
    by_cases hn : n = UInt64.ofNat (head + q.length)
    · have hentry : ¬ (queueEntry (rid, slot)).isEmpty = true := by
        rw [List.isEmpty_iff, ← List.length_eq_zero_iff, length_queueEntry]
        decide
      rw [if_pos (by rw [hn]), if_neg hentry, hn, hlast, if_neg (by omega),
        Nat.add_sub_cancel_left, List.getElem?_concat_length]
      rfl
    · have hne : n.toNat ≠ head + q.length := fun hn' ↦ hn (by rw [← hn', UInt64.ofNat_toNat])
      rw [if_neg (by simpa using hn), get_set_ne _ _ (by simp), h.entry n]
      by_cases hlt : n.toNat < head
      · rw [if_pos hlt, if_pos hlt]
      · rw [if_neg hlt, if_neg hlt]
        congr 1
        by_cases hin : n.toNat - head < q.length
        · rw [List.getElem?_append_left hin]
        · rw [List.getElem?_eq_none (by omega), List.getElem?_eq_none]
          rw [List.length_append, List.length_singleton]
          omega
  marked rid' s hs := by
    rw [List.mem_append, List.mem_singleton]
    by_cases hrid : rid' = rid
    · rw [landedSlot, getU32?, get_set_ne _ _ (by simp), get_set_ne _ _ (by simp), hrid] at hs
      have hmine := getU32?_set_same st (.rl rid) slot
      rw [getU32?] at hmine
      rw [hmine, Option.some.injEq] at hs
      exact Or.inr (by rw [hrid, hs])
    · rw [landedSlot_writes hrid] at hs
      exact Or.inl (h.marked rid' s hs)

/-- A filing drops the dead front of the queue, at most four entries, and joins at the back. -/
theorem Landed.file (h : Landed st head q) (rid : Bytes32) (slot : UInt32)
    (hroom : head + q.length + 1 < 2 ^ 64) (hlater : ∀ f ∈ q, f.2 ≤ slot) :
    Landed (markLanded st rid slot) (head + frontDead (expiredAt slot) gcSteps q)
      (q.drop (frontDead (expiredAt slot) gcSteps q) ++ [(rid, slot)]) := by
  obtain ⟨st', hreap, hqueue⟩ := @reapLanded_spec st head q slot gcSteps h.toQueueAt
  have hle : frontDead (expiredAt slot) gcSteps q ≤ q.length := frontDead_le_length _ _ _
  revert hreap hqueue hle
  generalize frontDead (expiredAt slot) gcSteps q = k
  intro hreap hqueue hle
  have htail : head + k + (q.drop k).length = head + q.length := by
    rw [List.length_drop]
    omega
  have heq : markLanded st rid slot = ((st'.set (.rl rid) (u32Bytes slot)).set
      (.rlq (UInt64.ofNat (head + k + (q.drop k).length))) (queueEntry (rid, slot))).set .rlh
        (u64Bytes (UInt64.ofNat (head + k)) ++ u64Bytes (UInt64.ofNat (head + q.length) + 1)) := by
    rw [markLanded_eq, h.bounds, htail]
    simp only [hreap]
  rw [heq]
  constructor
  · exact hqueue.push (by rw [htail]; exact hroom) rid slot _
  · rw [landedBounds_set_rlh, List.length_append, List.length_singleton, ← Nat.add_assoc, htail,
      UInt64.ofNat_add (head + q.length)]
    rfl
  · refine List.pairwise_append.mpr ⟨h.sorted.sublist (List.drop_sublist _ _), by simp, ?_⟩
    intro f hf f' hf'
    rw [List.mem_singleton.mp hf']
    exact hlater f (List.mem_of_mem_drop hf)

end File

/-! ### Runs -/

section Runs

variable {filings before after : List Filing} {f : Filing}

/-- A filing is young at a slot less than 600 after its own. -/
theorem young_iff (h : s.toNat + 600 < 2 ^ 32) :
    slot < satAdd32 s landedTtlSlots ↔ slot.toNat < s.toNat + 600 := by
  have httl : landedTtlSlots.toNat = 600 := rfl
  rw [UInt32.lt_iff_toNat_lt, toNat_satAdd32, httl, Nat.min_eq_left (by omega)]

theorem fileAll_concat (st : Storage) (filings : List Filing) (f : Filing) :
    fileAll st (filings ++ [f]) = markLanded (fileAll st filings) f.1 f.2 := by
  rw [fileAll, List.foldl_append]
  rfl

theorem landed_empty : Landed Store.empty 0 [] where
  fits := by decide
  entry n := by
    rw [if_neg (Nat.not_lt_zero _)]
    rfl
  marked rid s h := by cases h
  bounds := rfl
  sorted := List.Pairwise.nil

/-- The queue holds the filings themselves, from the head on. -/
theorem landed_fileAll (hcount : filings.length < 2 ^ 64)
    (hsorted : filings.Pairwise fun f f' ↦ f.2 ≤ f'.2) :
    ∃ head ≤ filings.length, Landed (fileAll Store.empty filings) head (filings.drop head) := by
  induction filings using List.reverseRecOn with
  | nil => exact ⟨0, Nat.le_refl 0, landed_empty⟩
  | append_singleton filings f ih =>
    rw [List.length_append, List.length_singleton] at hcount
    obtain ⟨hsorted, -, hlast⟩ := List.pairwise_append.mp hsorted
    obtain ⟨head, hle, hlanded⟩ := ih (by omega) hsorted
    have hlen : head + (filings.drop head).length = filings.length := by
      rw [List.length_drop]
      omega
    have hnext := hlanded.file f.1 f.2 (by omega) fun g hg ↦
      hlast g (List.mem_of_mem_drop hg) f List.mem_cons_self
    have hfront := frontDead_le_length (expiredAt f.2) gcSteps (filings.drop head)
    rw [List.drop_drop] at hnext
    revert hnext hfront
    generalize frontDead (expiredAt f.2) gcSteps (filings.drop head) = k
    intro hnext hfront
    refine ⟨head + k, ?_, ?_⟩
    · rw [List.length_append]
      omega
    · rw [fileAll_concat, List.drop_append_of_le_length (by omega)]
      exact hnext

/-- A marker stays while no later filing is of the same round or 600 slots on. -/
theorem landedSlot_fileAll (st : Storage) (hyoung : f.2.toNat + 600 < 2 ^ 32)
    (hother : ∀ g ∈ after, g.1 ≠ f.1) (hslot : ∀ g ∈ after, g.2.toNat < f.2.toNat + 600) :
    landedSlot (fileAll st (before ++ f :: after)) f.1 = some f.2 := by
  induction after using List.reverseRecOn with
  | nil =>
    rw [fileAll_concat]
    exact landedSlot_markLanded _ _ _
  | append_singleton after g ih =>
    have hg : g ∈ after ++ [g] := List.mem_append_right _ List.mem_cons_self
    rw [← List.cons_append, ← List.append_assoc, fileAll_concat]
    apply landedSlot_markLanded_other (hother g hg).symm
    · exact ih (fun g hg ↦ hother g (List.mem_append_left _ hg))
        fun g hg ↦ hslot g (List.mem_append_left _ hg)
    · exact (young_iff hyoung).mpr (hslot g hg)

section Landed

variable {st : Storage} {head : ℕ} {q : List Filing}

theorem toNat_ofNat_of_lt {n : ℕ} (h : n < 2 ^ 64) : (UInt64.ofNat n).toNat = n := by
  rw [UInt64.toNat_ofNat', Nat.mod_eq_of_lt h]

section

variable (h : Landed st head q)

include h

/-- The head and the tail, as numbers. -/
theorem Landed.toNat_bounds :
    (landedBounds st).1.toNat = head ∧ (landedBounds st).2.toNat = head + q.length := by
  have hfits := h.fits
  rw [h.bounds]
  exact ⟨toNat_ofNat_of_lt (by omega), toNat_ofNat_of_lt (by omega)⟩

/-- The entries between the head and the tail are the filings. -/
theorem Landed.entry_iff {n : UInt64} {e : Bytes} :
    st.get (.rlq n) = some e ↔
      head ≤ n.toNat ∧ ∃ f, q[n.toNat - head]? = some f ∧ queueEntry f = e := by
  rw [h.entry n]
  by_cases hn : n.toNat < head
  · rw [if_pos hn]
    constructor
    · intro he
      cases he
    · intro he
      omega
  · rw [if_neg hn, Option.map_eq_some_iff]
    exact ⟨fun he ↦ ⟨by omega, he⟩, fun he ↦ he.2⟩

theorem Landed.isSome_entry_iff (n : UInt64) :
    (st.get (.rlq n)).isSome ↔ head ≤ n.toNat ∧ n.toNat < head + q.length := by
  rw [Option.isSome_iff_exists]
  constructor
  · rintro ⟨e, he⟩
    obtain ⟨hn, f, hf, -⟩ := h.entry_iff.mp he
    have hlt := (List.getElem?_eq_some_iff.mp hf).1
    exact ⟨hn, by omega⟩
  · rintro ⟨hn, hlt⟩
    have hin : n.toNat - head < q.length := by omega
    exact ⟨_, h.entry_iff.mpr ⟨hn, _, List.getElem?_eq_getElem hin, rfl⟩⟩

theorem Landed.entry_slots_le {n n' : UInt64} {e e' : Bytes} (hnn : n ≤ n')
    (he : st.get (.rlq n) = some e) (he' : st.get (.rlq n') = some e') :
    u32At e 32 ≤ u32At e' 32 := by
  obtain ⟨hn, f, hf, rfl⟩ := h.entry_iff.mp he
  obtain ⟨hn', f', hf', rfl⟩ := h.entry_iff.mp he'
  rw [u32At_queueEntry, u32At_queueEntry]
  obtain ⟨hi, rfl⟩ := List.getElem?_eq_some_iff.mp hf
  obtain ⟨hi', rfl⟩ := List.getElem?_eq_some_iff.mp hf'
  rw [UInt64.le_iff_toNat_le] at hnn
  rcases Nat.eq_or_lt_of_le hnn with heq | hlt
  · simp only [heq]
    exact UInt32.le_refl _
  · exact List.pairwise_iff_getElem.mp h.sorted _ _ hi hi' (by omega)

/-- The key of a filing in the queue. -/
theorem Landed.exists_get {i : ℕ} {f : Filing} (hf : q[i]? = some f) :
    ∃ n : UInt64, n.toNat = head + i ∧ st.get (.rlq n) = some (queueEntry f) := by
  have hfits := h.fits
  have hi := (List.getElem?_eq_some_iff.mp hf).1
  have hn : (UInt64.ofNat (head + i)).toNat = head + i := toNat_ofNat_of_lt (by omega)
  refine ⟨UInt64.ofNat (head + i), hn, h.entry_iff.mpr ?_⟩
  rw [hn, Nat.add_sub_cancel_left]
  exact ⟨Nat.le_add_right _ _, f, hf, rfl⟩

theorem Landed.exists_entry (hs : landedSlot st rid = some s) :
    ∃ n : UInt64, head ≤ n.toNat ∧ n.toNat < head + q.length ∧
      st.get (.rlq n) = some (queueEntry (rid, s)) := by
  obtain ⟨i, hi, hget⟩ := List.mem_iff_getElem.mp (h.marked rid s hs)
  obtain ⟨n, hn, hentry⟩ := h.exists_get (List.getElem?_eq_some_iff.mpr ⟨hi, hget⟩)
  exact ⟨n, by omega, by omega, hentry⟩

/-- What a filing leaves in place when it drops fewer than four entries. -/
theorem Landed.stops (hslots : ∀ f ∈ q, f.2.toNat + 600 < 2 ^ 32)
    (hfew : frontDead (expiredAt slot) gcSteps q < gcSteps) :
    frontDead (expiredAt slot) gcSteps q = q.length ∨
      ∃ (n : UInt64) (e : Bytes), n.toNat = head + frontDead (expiredAt slot) gcSteps q ∧
        st.get (.rlq n) = some e ∧ slot.toNat < (u32At e 32).toNat + 600 := by
  rcases live_of_frontDead_lt hfew with hall | ⟨f, hf, hlive⟩
  · exact Or.inl hall
  · obtain ⟨n, hn, hentry⟩ := h.exists_get hf
    refine Or.inr ⟨n, _, hn, hentry, ?_⟩
    rw [u32At_queueEntry, ← young_iff (hslots f (List.mem_of_getElem? hf))]
    exact expiredAt_eq_false.mp hlive

end

end Landed

/-- Head and tail after a sequence of filings, as numbers. -/
def boundsAfter (filings : List Filing) : ℕ × ℕ :=
  ((landedBounds (fileAll Store.empty filings)).1.toNat,
    (landedBounds (fileAll Store.empty filings)).2.toNat)

/-- What the markers and the queue promise after a sequence of filings from empty storage. -/
structure KeepsLanded (filings : List Filing) : Prop where
  /-- A round reads as landed at its latest slot until a filing 600 slots on. -/
  kept : ∀ before f after, filings = before ++ f :: after → (∀ g ∈ after, g.1 ≠ f.1) →
    (∀ g ∈ after, g.2.toNat < f.2.toNat + 600) →
      landedSlot (fileAll Store.empty filings) f.1 = some f.2
  /-- The queue keys present are those numbered from the head up to the tail. -/
  keys : ∀ n : UInt64, ((fileAll Store.empty filings).get (.rlq n)).isSome ↔
    (boundsAfter filings).1 ≤ n.toNat ∧ n.toNat < (boundsAfter filings).2
  /-- The slots of the queue never decrease. -/
  ordered : ∀ (n n' : UInt64) (e e' : Bytes), n ≤ n' →
    (fileAll Store.empty filings).get (.rlq n) = some e →
      (fileAll Store.empty filings).get (.rlq n') = some e' → u32At e 32 ≤ u32At e' 32
  /-- Every marker has an entry with its id and slot in the queue. -/
  filed : ∀ rid s, landedSlot (fileAll Store.empty filings) rid = some s →
    ∃ n : UInt64, (boundsAfter filings).1 ≤ n.toNat ∧ n.toNat < (boundsAfter filings).2 ∧
      (fileAll Store.empty filings).get (.rlq n) = some (rid.val ++ u32Bytes s)
  /-- A filing drops at most four entries, and fewer only if it empties the queue or the entry it
  stops at is younger than 600 slots. -/
  reaped : ∀ before f, filings = before ++ [f] →
    (boundsAfter before).1 ≤ (boundsAfter filings).1 ∧
      (boundsAfter filings).1 ≤ (boundsAfter before).1 + 4 ∧
        ((boundsAfter filings).1 < (boundsAfter before).1 + 4 →
          (boundsAfter filings).1 = (boundsAfter before).2 ∨
            ∃ (n : UInt64) (e : Bytes), n.toNat = (boundsAfter filings).1 ∧
              (fileAll Store.empty before).get (.rlq n) = some e ∧
                f.2.toNat < (u32At e 32).toNat + 600)

theorem Landed.boundsAfter_eq {head : ℕ} {q : List Filing}
    (h : Landed (fileAll Store.empty filings) head q) :
    boundsAfter filings = (head, head + q.length) :=
  Prod.ext h.toNat_bounds.1 h.toNat_bounds.2

/-- Before `2 ^ 64` filings the markers and the queue keep their promises. -/
theorem keepsLanded (hcount : filings.length < 2 ^ 64)
    (hsorted : filings.Pairwise fun f f' ↦ f.2 ≤ f'.2)
    (hslots : ∀ f ∈ filings, f.2.toNat < 2 ^ 32 - 600) : KeepsLanded filings := by
  obtain ⟨head, -, h⟩ := landed_fileAll hcount hsorted
  have hyoung : ∀ f ∈ filings, f.2.toNat + 600 < 2 ^ 32 := fun f hf ↦ by
    have := hslots f hf
    omega
  constructor
  · rintro before f after rfl hother hslot
    exact landedSlot_fileAll _ (hyoung f (by simp)) hother hslot
  · rw [h.boundsAfter_eq]
    exact h.isSome_entry_iff
  · exact fun n n' e e' ↦ h.entry_slots_le
  · rw [h.boundsAfter_eq]
    exact fun rid s ↦ h.exists_entry
  · rintro before f rfl
    rw [List.length_append, List.length_singleton] at hcount
    obtain ⟨hbefore, -, hlast⟩ := List.pairwise_append.mp hsorted
    obtain ⟨head', hle, h'⟩ := landed_fileAll (by omega) hbefore
    have hnext := h'.file f.1 f.2 (by rw [List.length_drop]; omega) fun g hg ↦
      hlast g (List.mem_of_mem_drop hg) f List.mem_cons_self
    rw [← fileAll_concat] at hnext
    rw [hnext.boundsAfter_eq, h'.boundsAfter_eq, Nat.add_lt_add_iff_left, Nat.add_left_cancel_iff]
    refine ⟨Nat.le_add_right _ _, Nat.add_le_add_left (Nat.min_le_left _ _) _, fun hfew ↦ ?_⟩
    exact h'.stops (fun g hg ↦ hyoung g (List.mem_append_left _ (List.mem_of_mem_drop hg))) hfew

/-- A round filed at slots 0 and 10, and one filed between. -/
def refiledRun : List Filing :=
  [(FixedBytes.ofBytes 32 [1], 0), (FixedBytes.ofBytes 32 [2], 0),
    (FixedBytes.ofBytes 32 [1], 10), (FixedBytes.ofBytes 32 [3], 600)]

/-- The last filing reaps both entries of slot 0, and the marker of slot 10 stays. -/
theorem keepsLanded_refiledRun :
    boundsAfter refiledRun = (2, 4) ∧
      landedSlot (fileAll Store.empty refiledRun) (FixedBytes.ofBytes 32 [1]) = some 10 ∧
        KeepsLanded refiledRun :=
  ⟨by decide +kernel, by decide +kernel,
    keepsLanded (by decide) (by decide) (by decide)⟩

/-! ### The tail comes round -/

/-- At slot 0 nothing is old. -/
theorem frontDead_replicate (rid : Bytes32) (n : ℕ) :
    frontDead (expiredAt 0) gcSteps (List.replicate n (rid, 0)) = 0 := by
  have hlive : expiredAt 0 (rid, 0) = false := by
    rw [expiredAt_eq_false]
    show (0 : UInt32) < satAdd32 0 landedTtlSlots
    decide
  cases n with
  | zero => rfl
  | succ n => exact frontDead_cons_live hlive

/-- Filings of one round at slot 0 are all kept. -/
theorem landed_replicate (rid : Bytes32) {n : ℕ} (hn : n < 2 ^ 64) :
    Landed (fileAll Store.empty (List.replicate n (rid, 0))) 0 (List.replicate n (rid, 0)) := by
  induction n with
  | zero => exact landed_empty
  | succ n ih =>
    have hnext := (ih (by omega)).file rid 0 (by rw [List.length_replicate]; omega) fun f hf ↦ by
      rw [(List.mem_replicate.mp hf).2]
      exact UInt32.le_refl _
    rw [frontDead_replicate] at hnext
    rw [List.replicate_succ', fileAll_concat]
    exact hnext

/-- The filing that takes the last number leaves an empty range and every entry in place. -/
theorem wrap_replicate (rid : Bytes32) {n : ℕ} (hn : n + 1 = 2 ^ 64) :
    boundsAfter (List.replicate (n + 1) (rid, 0)) = (0, 0) ∧
      ((fileAll Store.empty (List.replicate (n + 1) (rid, 0))).get (.rlq 0)).isSome := by
  have h := @landed_replicate rid n (by omega)
  obtain ⟨st', hreap, hqueue⟩ := @reapLanded_spec _ _ _ 0 gcSteps h.toQueueAt
  have hlast : (UInt64.ofNat n).toNat = n := toNat_ofNat_of_lt (by omega)
  have hround : UInt64.ofNat n + 1 = 0 := by
    apply UInt64.toNat_inj.mp
    rw [UInt64.toNat_add, hlast]
    exact (congrArg (· % 2 ^ 64) hn).trans (Nat.mod_self _)
  rw [frontDead_replicate, List.length_replicate, Nat.zero_add, Nat.zero_add] at hreap
  rw [frontDead_replicate] at hqueue
  rw [List.replicate_succ', boundsAfter, fileAll_concat, markLanded_eq, h.bounds,
    List.length_replicate, Nat.zero_add]
  simp only [hreap]
  rw [landedBounds_set_rlh, hround, get_set_ne _ _ (by simp), get_set_ne, get_set_ne _ _ (by simp),
    hqueue.entry]
  · refine ⟨rfl, ?_⟩
    have hfirst : (List.replicate n (rid, (0 : UInt32)))[0]? = some (rid, 0) := by
      rw [List.getElem?_replicate, if_pos (by omega)]
    show (if (0 : ℕ) < 0 then none else (List.replicate n (rid, 0))[0]?.map queueEntry).isSome
    rw [if_neg (Nat.lt_irrefl 0), hfirst]
    rfl
  · intro heq
    rw [Key.rlq.injEq] at heq
    rw [← heq] at hlast
    have hzero : (0 : UInt64).toNat = 0 := rfl
    omega

/-- After `2 ^ 64` filings the bounds say that the queue is empty, and it is full. -/
theorem landedBounds_wrap :
    ¬ ∀ filings : List Filing, (filings.Pairwise fun f f' ↦ f.2 ≤ f'.2) →
      (∀ f ∈ filings, f.2.toNat < 2 ^ 32 - 600) → KeepsLanded filings := by
  intro h
  obtain ⟨n, hn⟩ : ∃ n, n + 1 = 2 ^ 64 := ⟨2 ^ 64 - 1, by norm_num⟩
  obtain ⟨hbounds, hfull⟩ := wrap_replicate (FixedBytes.ofBytes 32 []) hn
  have hkeeps := h (List.replicate (n + 1) (FixedBytes.ofBytes 32 [], 0))
    (List.pairwise_replicate.mpr (Or.inr (UInt32.le_refl _))) fun f hf ↦ by
      rw [(List.mem_replicate.mp hf).2]
      decide
  have hin := (hkeeps.keys 0).mp hfull
  rw [hbounds] at hin
  exact Nat.not_lt_zero _ hin.2

end Runs

end Jamswap.Service
