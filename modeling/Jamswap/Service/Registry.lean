import Jamswap.Library.Roll
import Jamswap.Service.CommitSets
import Jamswap.Service.Replay

/-!
# The account registry numbers keys in the order they are first registered

`register_key` binds a fresh key to the next handle under two keys of the storage, one for each
direction, and counts on. Abstractly that is a roll of keys numbered from one, and `Registry.Holds`
says that a storage holds one. A registration enters its key (`Registry.Holds.registerKey`); nothing
else writes a key of the registry (`frame_deliver_of_registration`). Over a run from empty storage
the two maps are therefore each other's inverse, and they only grow (`registry_bijective`). The last
handle of all is the treasury's, which the numbering would reach only after `2 ^ 32 - 1` keys.
-/

namespace Jamswap.Service

open Library Engine Storage

/-- The key a work item asks the service to register, if its output is a registration. -/
def registration (P : Primitives) (item : WorkItem) : Option Bytes32 :=
  match workResult P item.payload with
  | .ok out =>
    if tagOf out.val = some .register ∧ out.val.length = 1 + 32 then
      some (FixedBytes.ofBytes 32 (slice out.val 1 33))
    else none
  | .error _ => none

/-- The distinct keys registered by a run. -/
def registeredKeys (P : Primitives) (items : List WorkItem) : Finset Bytes32 :=
  (items.filterMap (registration P)).toFinset

variable {key : Bytes32}

section Deliveries

variable {P : Primitives} {st : Storage} {item : WorkItem}

theorem deliver_of_registration (h : registration P item = some key) :
    (deliver P st item).1 = (registerKey st key).1 := by
  unfold registration at h
  unfold deliver
  cases hresult : workResult P item.payload with
  | error e =>
    rw [hresult] at h
    cases h
  | ok out =>
    rw [hresult] at h
    simp only at h ⊢
    split_ifs at h with hregister
    obtain ⟨htag, hsized⟩ := hregister
    have htag' : out.val.head?.bind Tag.ofByte = some .register := htag
    cases h
    simp only [accumulateItem, htag', accumulateRegister]
    rw [if_pos hsized]

/-- Only a registration's keys are the registry's. -/
theorem itemKeys_subset_compl {tag : Tag} (htag : tag ≠ .register) (out : Bytes) :
    itemKeys tag out ⊆ registryKeysᶜ := by
  intro k hk hregistry
  rcases hregistry with ⟨handle, rfl⟩ | ⟨pk, rfl⟩ | rfl
  all_goals
    cases tag with
    | register => exact htag rfl
    | _ =>
      simp [roundKeys] at hk

theorem frame_deliver_of_registration (h : registration P item = none) :
    Frame registryKeysᶜ st (deliver P st item).1 := by
  refine frame_deliver fun out tag st' hresult htag hstep ↦ itemKeys_subset_compl ?_ _
  rintro rfl
  simp only [registration, hresult] at h
  cases hstep with
  | register tagged sized fresh => simp [tagged, sized] at h
  | round isRound step =>
    cases htag.symm.trans step.tagged
    cases isRound
  | _ => cases htag.symm.trans (by assumption)

end Deliveries

/-! ### The storage holds a roll -/

namespace Registry

/-- Both maps read the roll, and the next handle is the number after its last. -/
structure Holds (st : Storage) (r : Roll Bytes32) : Prop where
  pubkeys : ∀ handle, pubkeyOf st handle = r.nameOf handle.toNat
  handles : ∀ key handle, handleOf st key = some handle ↔ r.nameOf handle.toNat = some key
  next : (getU32? st .nexthandle).getD 1 = UInt32.ofNat (r.names.length + 1)

theorem holds_empty : Holds Store.empty Roll.empty where
  pubkeys handle := by
    rw [Roll.nameOf_empty]
    rfl
  handles key handle := by
    rw [Roll.nameOf_empty, show handleOf Store.empty key = none from rfl]
    exact ⟨fun h ↦ absurd h (by simp), fun h ↦ absurd h (by simp)⟩
  next := rfl

variable {st st' : Storage} {r : Roll Bytes32}

theorem handleOf_of_frame (hframe : Frame registryKeysᶜ st st') (key : Bytes32) :
    handleOf st' key = handleOf st key := by
  rw [handleOf, handleOf, getU32?, getU32?, hframe.get_eq fun hk ↦ hk (Or.inr (Or.inl ⟨_, rfl⟩))]

theorem Holds.frame (h : Holds st r) (hframe : Frame registryKeysᶜ st st') : Holds st' r where
  pubkeys handle := by
    rw [← h.pubkeys]
    exact pubkeyOf_of_frame hframe fun hk ↦ hk (Or.inl ⟨_, rfl⟩)
  handles key handle := by
    rw [← h.handles, handleOf_of_frame hframe]
  next := by
    rw [← h.next, getU32?, getU32?, hframe.get_eq fun hk ↦ hk (Or.inr (Or.inr rfl))]

theorem Holds.mem_of_handleOf (h : Holds st r) {handle : UInt32}
    (hkey : handleOf st key = some handle) : key ∈ r.names := by
  have hname := (h.handles key handle).mp hkey
  have hused := (r.isSome_nameOf_iff handle.toNat).mp (by rw [hname]; rfl)
  exact Roll.mem_iff_exists_nameOf.mpr ⟨_, hused.2, hname⟩

theorem Holds.notMem_of_handleOf (h : Holds st r) (hroom : r.names.length < 2 ^ 32)
    (hkey : handleOf st key = none) : key ∉ r.names := by
  intro hmem
  obtain ⟨n, hn, hname⟩ := Roll.mem_iff_exists_nameOf.mp hmem
  have hsome : handleOf st key = some (UInt32.ofNat n) := by
    rw [h.handles, UInt32.toNat_ofNat_of_lt' (hn.trans_lt hroom), hname]
  rw [hkey] at hsome
  cases hsome

/-! A fresh key is bound to the next handle, and no other binding is touched. -/

theorem pubkeyOf_registerKey (hkey : handleOf st key = none) (handle : UInt32) :
    pubkeyOf (registerKey st key).1 handle =
      if handle = (getU32? st .nexthandle).getD 1 then some key else pubkeyOf st handle := by
  have hget : (registerKey st key).1.get (.pk handle) =
      if handle = (getU32? st .nexthandle).getD 1 then some key.val else st.get (.pk handle) := by
    have hfull : key.val.isEmpty = false := by
      rw [List.isEmpty_eq_false_iff, ← List.length_pos_iff, key.property]
      decide
    simp [registerKey, hkey, get_set, hfull]
  unfold pubkeyOf
  rw [hget]
  split_ifs with hnext
  · have hwhole : slice key.val 0 32 = key.val := by
      rw [slice, List.drop_zero, List.take_of_length_le key.property.le]
    simp [hwhole]
  · rfl

theorem getU32?_set (st : Storage) (k k' : Key) (v : UInt32) :
    getU32? (st.set k (u32Bytes v)) k' = if k' = k then some v else getU32? st k' := by
  unfold getU32?
  rw [get_set]
  split_ifs with hk hempty
  · simp [u32Bytes, ← List.length_eq_zero_iff] at hempty
  · simp
  · rfl

theorem getU32?_set_ne (st : Storage) {k k' : Key} (v : Bytes) (h : k' ≠ k) :
    getU32? (st.set k v) k' = getU32? st k' := by
  unfold getU32?
  rw [get_set_ne st v h]

theorem handleOf_registerKey (hkey : handleOf st key = none) (key' : Bytes32) :
    handleOf (registerKey st key).1 key' =
      if key' = key then some ((getU32? st .nexthandle).getD 1) else handleOf st key' := by
  simp only [registerKey, hkey]
  rw [handleOf, getU32?_set_ne _ _ (by simp), getU32?_set, getU32?_set_ne _ _ (by simp)]
  simp only [Key.hkey.injEq]
  rfl

theorem nexthandle_registerKey (hkey : handleOf st key = none) :
    getU32? (registerKey st key).1 .nexthandle =
      some (satAdd32 ((getU32? st .nexthandle).getD 1) 1) := by
  simp only [registerKey, hkey]
  rw [getU32?_set, if_pos rfl]

/-- Registering a key enters it in the roll, while there are handles below the treasury's. -/
theorem Holds.registerKey (h : Holds st r) (key : Bytes32)
    (hroom : (r.enter key).names.length < 2 ^ 32 - 1) :
    Holds (registerKey st key).1 (r.enter key) := by
  cases hkey : handleOf st key with
  | some handle =>
    rw [registerKey_of_known (by rw [hkey]; rfl), Roll.enter_of_mem (h.mem_of_handleOf hkey)]
    exact h
  | none =>
    have hmono : r.names.length ≤ (r.enter key).names.length :=
      Roll.length_le_length_enterAll r [key]
    have hfresh := h.notMem_of_handleOf (by omega) hkey
    have hlen := congrArg List.length (Roll.names_enter_of_notMem hfresh)
    rw [List.length_append, List.length_singleton] at hlen
    have hnext : ((getU32? st .nexthandle).getD 1).toNat = r.names.length + 1 := by
      rw [h.next, UInt32.toNat_ofNat_of_lt' (by simp only [UInt32.size]; omega)]
    exact {
      pubkeys handle := by
        rw [pubkeyOf_registerKey hkey, Roll.nameOf_enter_of_notMem hfresh, ← hnext, h.pubkeys]
        simp only [UInt32.toNat_inj]
      handles key' handle := by
        rw [handleOf_registerKey hkey, Roll.nameOf_enter_of_notMem hfresh, ← hnext]
        simp only [UInt32.toNat_inj]
        by_cases hnew : handle = (getU32? st .nexthandle).getD 1
        · rw [if_pos hnew, hnew]
          split_ifs with hsame
          · rw [hsame]
            exact ⟨fun _ ↦ rfl, fun _ ↦ rfl⟩
          · -- the next handle names nobody yet
            rw [h.handles, hnext, Roll.nameOf_succ_length]
            exact ⟨fun hname ↦ absurd hname (by simp),
              fun heq ↦ absurd (Option.some.inj heq).symm hsame⟩
        · rw [if_neg hnew]
          split_ifs with hsame
          · rw [hsame, ← h.handles, hkey]
            exact ⟨fun heq ↦ absurd (Option.some.inj heq).symm hnew, fun heq ↦ absurd heq (by simp)⟩
          · exact h.handles key' handle
      next := by
        rw [nexthandle_registerKey hkey, Option.getD_some, hlen, ← UInt32.toNat_inj,
          toNat_satAdd32, hnext, UInt32.toNat_ofNat_of_lt' (by simp only [UInt32.size]; omega)]
        simp only [UInt32.toNat_one]
        omega }

/-- A run keeps the roll of the keys it registers. -/
theorem Holds.runItems {P : Primitives} {st : Storage} {r : Roll Bytes32} (h : Holds st r)
    (items : List WorkItem)
    (hroom : (r.enterAll (items.filterMap (registration P))).names.length < 2 ^ 32 - 1) :
    Holds (runItems P st items) (r.enterAll (items.filterMap (registration P))) := by
  induction items generalizing st r with
  | nil => exact h
  | cons item items ih =>
    rw [Service.runItems, List.foldl_cons, ← Service.runItems]
    cases hkey : registration P item with
    | none =>
      rw [List.filterMap_cons_none hkey] at hroom ⊢
      exact ih (h.frame (frame_deliver_of_registration hkey)) hroom
    | some key =>
      rw [List.filterMap_cons_some hkey, Roll.enterAll, List.foldl_cons, ← Roll.enterAll] at hroom ⊢
      rw [deliver_of_registration hkey]
      refine ih (h.registerKey key ?_) hroom
      exact (Roll.length_le_length_enterAll _ _).trans_lt hroom

end Registry

/-- The registry is a bijection that only grows. Over a run from empty storage that registers fewer
than `2 ^ 32 - 1` distinct keys: each map is the inverse of the other; the handles in use are
`1, …, n` for `n` registered keys, and those keys are the ones with a handle; what was bound after
some items stays bound after all of them; an item that registers nothing leaves both maps alone;
and the treasury's handle has no key. -/
theorem registry_bijective (P : Primitives) (items : List WorkItem)
    (hroom : (registeredKeys P items).card < 2 ^ 32 - 1) :
    (∀ key handle, handleOf (runItems P Store.empty items) key = some handle ↔
      pubkeyOf (runItems P Store.empty items) handle = some key) ∧
    (∀ handle, (pubkeyOf (runItems P Store.empty items) handle).isSome ↔
      1 ≤ handle.toNat ∧ handle.toNat ≤ (registeredKeys P items).card) ∧
    (∀ key, (handleOf (runItems P Store.empty items) key).isSome ↔ key ∈ registeredKeys P items) ∧
    (∀ before after, items = before ++ after → ∀ key handle,
      (handleOf (runItems P Store.empty before) key = some handle →
        handleOf (runItems P Store.empty items) key = some handle) ∧
      (pubkeyOf (runItems P Store.empty before) handle = some key →
        pubkeyOf (runItems P Store.empty items) handle = some key)) ∧
    (∀ before item after, items = before ++ item :: after → registration P item = none →
      (∀ key, handleOf (runItems P Store.empty (before ++ [item])) key =
        handleOf (runItems P Store.empty before) key) ∧
      ∀ handle, pubkeyOf (runItems P Store.empty (before ++ [item])) handle =
        pubkeyOf (runItems P Store.empty before) handle) ∧
    pubkeyOf (runItems P Store.empty items) feeAccount = none := by
  have hcard : ∀ items, (registeredKeys P items).card =
      (Roll.empty.enterAll (items.filterMap (registration P))).names.length := by
    intro items
    rw [← Roll.card_toFinset, Roll.toFinset_enterAll]
    simp [registeredKeys, Roll.empty]
  have hholds : ∀ before, (registeredKeys P before).card ≤ (registeredKeys P items).card →
      Registry.Holds (runItems P Store.empty before)
        (Roll.empty.enterAll (before.filterMap (registration P))) := by
    intro before hle
    exact Registry.holds_empty.runItems before (by rw [← hcard]; omega)
  have hall := hholds items le_rfl
  have hused : ∀ handle, (pubkeyOf (runItems P Store.empty items) handle).isSome ↔
      1 ≤ handle.toNat ∧ handle.toNat ≤ (registeredKeys P items).card := by
    intro handle
    rw [hall.pubkeys, Roll.isSome_nameOf_iff, hcard]
  refine ⟨?_, hused, ?_, ?_, ?_, ?_⟩
  · intro key handle
    rw [hall.handles, hall.pubkeys]
  · intro key
    have hmem : key ∈ registeredKeys P items ↔
        key ∈ (Roll.empty.enterAll (items.filterMap (registration P))).names := by
      rw [← List.mem_toFinset, Roll.toFinset_enterAll]
      simp [registeredKeys, Roll.empty]
    rw [hmem]
    constructor
    · intro hsome
      obtain ⟨handle, hhandle⟩ := Option.isSome_iff_exists.mp hsome
      exact hall.mem_of_handleOf hhandle
    · intro hmem
      cases hkey : handleOf (runItems P Store.empty items) key with
      | some handle => rfl
      | none => exact absurd hmem (hall.notMem_of_handleOf (by rw [← hcard]; omega) hkey)
  · rintro before after rfl
    have hsub : registeredKeys P before ⊆ registeredKeys P (before ++ after) := by
      simp only [registeredKeys, List.filterMap_append, List.toFinset_append]
      exact Finset.subset_union_left
    have hbefore := hholds before (Finset.card_le_card hsub)
    have hgrown : ∀ {n key}, (Roll.empty.enterAll (before.filterMap (registration P))).nameOf n =
        some key → (Roll.empty.enterAll ((before ++ after).filterMap (registration P))).nameOf n =
          some key := by
      intro n key hname
      rw [List.filterMap_append, Roll.enterAll, List.foldl_append]
      exact Roll.nameOf_enterAll_of_some hname _
    intro key handle
    rw [hbefore.handles, hall.handles, hbefore.pubkeys, hall.pubkeys]
    exact ⟨hgrown, hgrown⟩
  · intro before item after _ hnone
    rw [runItems_concat]
    have hframe : Frame registryKeysᶜ (runItems P Store.empty before) _ :=
      frame_deliver_of_registration hnone
    exact ⟨fun key ↦ Registry.handleOf_of_frame hframe key,
      fun handle ↦ pubkeyOf_of_frame hframe fun hk ↦ hk (Or.inl ⟨_, rfl⟩)⟩
  · rw [← Option.not_isSome_iff_eq_none, hused]
    have hlast : feeAccount.toNat = 2 ^ 32 - 1 := by decide
    omega

theorem length_listing :
    ([Tag.list.byte] ++ u32Bytes 0 ++ u32Bytes 3 ++ u32Bytes 4).length ≤ maxInput := by
  decide +kernel

/-- Two keys register, the first of them twice, and a market is listed in between. -/
def registeringRun : List WorkItem :=
  [firstRegistration,
    ⟨2, ⟨_, length_listing⟩⟩,
    ⟨3, ⟨[Tag.register.byte] ++ List.replicate 32 9 ++ List.replicate 64 0, by decide +kernel⟩⟩,
    firstRegistration]

theorem registry_bijective_registeringRun :
    (registeredKeys Primitives.toy registeringRun).card = 2 ∧
      handleOf (runItems Primitives.toy Store.empty registeringRun)
        (FixedBytes.ofBytes 32 (List.replicate 32 9)) = some 2 ∧
      (pubkeyOf (runItems Primitives.toy Store.empty registeringRun) 3).isSome = false := by
  have hcard : (registeredKeys Primitives.toy registeringRun).card = 2 := by decide +kernel
  obtain ⟨hinverse, hused, -⟩ := registry_bijective Primitives.toy registeringRun
    (by rw [hcard]; decide)
  refine ⟨hcard, (hinverse _ 2).mpr (by decide +kernel), ?_⟩
  rw [Bool.eq_false_iff, Ne, hused, hcard]
  decide

end Jamswap.Service
