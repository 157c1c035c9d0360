import Jamswap.Engine.Primitives
import Jamswap.Library.Store

/-!
# The service's storage keys

Every storage access of the service is under one of the keys below; `Key.bytes` gives the bytes the
source builds for it. Keys of different families never collide and a family's keys are determined
by their parts (`Key.bytes_injective`), shown by reading the key back from its bytes. `Storage` is
the host's byte store, read and written here under typed keys only.
-/

namespace Jamswap.Service

open Library Engine

/-- The keys of the service. -/
inductive Key
  /-- balance of an account in an asset: `b ‖ asset ‖ account` -/
  | bal (asset account : UInt32)
  /-- custodied total of an asset -/
  | cust (asset : UInt32)
  /-- a market's resting book -/
  | book (market : UInt32)
  /-- a market's sealed commitments -/
  | commits (market : UInt32)
  /-- a market's sealed ciphertext ids -/
  | encset (market : UInt32)
  /-- expiry slots of the commitments -/
  | cage (market : UInt32)
  /-- the assets a market was listed with -/
  | mkt (market : UInt32)
  /-- last clearing price -/
  | lp (market : UInt32)
  /-- cumulative volume -/
  | cv (market : UInt32)
  /-- registered key of an account -/
  | pk (handle : UInt32)
  /-- account of a registered key -/
  | hkey (pubkey : Bytes32)
  /-- withdraw and cancel nonce -/
  | nc (handle : UInt32)
  /-- order seq floor -/
  | sq (handle : UInt32)
  /-- commit seq floor -/
  | sc (handle : UInt32)
  /-- deposit floor and window -/
  | dn (account : UInt32)
  /-- carry credits of an account in a market -/
  | cw (market account : UInt32)
  /-- landed marker of a round -/
  | rl (roundId : Bytes32)
  /-- landed queue entry -/
  | rlq (n : UInt64)
  /-- landed queue head and tail -/
  | rlh
  | nexthandle
  | govnonce
  | comnonce
  | committee
  | markets
  deriving DecidableEq

/-- prefix ‖ market(4). -/
def mkey (label : Bytes) (market : UInt32) : Bytes := label ++ u32Bytes market

/-- The storage key the source builds. -/
def Key.bytes : Key → Bytes
  | .bal asset account => ascii "b" ++ u32Bytes asset ++ u32Bytes account
  | .cust asset => ascii "cust" ++ u32Bytes asset
  | .book market => mkey (ascii "book") market
  | .commits market => mkey (ascii "commits") market
  | .encset market => mkey (ascii "encset") market
  | .cage market => mkey (ascii "cage") market
  | .mkt market => mkey (ascii "mkt") market
  | .lp market => mkey (ascii "lp") market
  | .cv market => mkey (ascii "cv") market
  | .pk handle => mkey (ascii "pk") handle
  | .hkey pubkey => ascii "h" ++ pubkey.val
  | .nc handle => mkey (ascii "nc") handle
  | .sq handle => ascii "sq" ++ u32Bytes handle
  | .sc handle => ascii "sc" ++ u32Bytes handle
  | .dn account => ascii "dn" ++ u32Bytes account
  | .cw market account => ascii "cw" ++ u32Bytes market ++ u32Bytes account
  | .rl roundId => ascii "rl" ++ roundId.val
  | .rlq n => ascii "rlq" ++ u64Bytes n
  | .rlh => ascii "rlh"
  | .nexthandle => ascii "nexthandle"
  | .govnonce => ascii "govnonce"
  | .comnonce => ascii "comnonce"
  | .committee => ascii "committee"
  | .markets => ascii "markets"

/-- Read a key back from its bytes: the length and at most the first two bytes name the family. -/
def Key.ofBytes (b : Bytes) : Key :=
  let second := byteAt b 1
  match b.length, byteAt b 0 with
  | 3, _ => .rlh
  | 6, 0x6c => .lp (u32At b 2)
  | 6, 0x63 => .cv (u32At b 2)
  | 6, 0x70 => .pk (u32At b 2)
  | 6, 0x6e => .nc (u32At b 2)
  | 6, 0x64 => .dn (u32At b 2)
  | 6, _ => if second = 0x71 then .sq (u32At b 2) else .sc (u32At b 2)
  | 7, _ => if second = 0x6b then .mkt (u32At b 3) else .markets
  | 8, 0x62 => .book (u32At b 4)
  | 8, 0x67 => .govnonce
  | 8, _ =>
    if second = 0x75 then .cust (u32At b 4)
    else if second = 0x61 then .cage (u32At b 4) else .comnonce
  | 9, 0x62 => .bal (u32At b 1) (u32At b 5)
  | 9, _ => .committee
  | 10, 0x65 => .encset (u32At b 6)
  | 10, 0x63 => .cw (u32At b 2) (u32At b 6)
  | 10, _ => .nexthandle
  | 11, 0x63 => .commits (u32At b 7)
  | 11, _ => .rlq (u64At b 3)
  | 33, _ => .hkey (FixedBytes.ofBytes 32 (b.drop 1))
  | _, _ => .rl (FixedBytes.ofBytes 32 (b.drop 2))

@[simp] private theorem u32At_cons (x : UInt8) (b : Bytes) (i : ℕ) :
    u32At (x :: b) (i + 1) = u32At b i := by
  have hwidth : i + 1 + 4 - (i + 1) = i + 4 - i := by omega
  rw [u32At, u32At, slice, slice, List.drop_succ_cons, hwidth]

@[simp] private theorem u64At_cons (x : UInt8) (b : Bytes) (i : ℕ) :
    u64At (x :: b) (i + 1) = u64At b i := by
  have hwidth : i + 1 + 8 - (i + 1) = i + 8 - i := by omega
  rw [u64At, u64At, slice, slice, List.drop_succ_cons, hwidth]

@[simp] private theorem u32At_skip (x y : UInt32) :
    u32At (u32Bytes x ++ u32Bytes y) 4 = y := by
  have hskip : Cursor (u32Bytes x ++ (u32Bytes y ++ [])) 4 (u32Bytes y) [] :=
    (Cursor.start (u32Bytes x) _).next (by simp)
  simpa using hskip.u32At_eq

theorem Key.ofBytes_bytes (k : Key) : Key.ofBytes k.bytes = k := by
  cases k <;> simp [Key.bytes, Key.ofBytes, mkey, byteAt, ascii]

/-- No two keys of the service collide in storage. -/
theorem Key.bytes_injective : Function.Injective Key.bytes :=
  Function.LeftInverse.injective Key.ofBytes_bytes

/-- The families of keys, one for each function or constant of the source that makes keys. -/
inductive Key.Family
  | bal | cust | book | commits | encset | cage | mkt | lp | cv | pk | hkey | nc | sq | sc | dn
  | cw | rl | rlq | rlh | nexthandle | govnonce | comnonce | committee | markets
  deriving DecidableEq

def Key.family : Key → Key.Family
  | .bal _ _ => .bal
  | .cust _ => .cust
  | .book _ => .book
  | .commits _ => .commits
  | .encset _ => .encset
  | .cage _ => .cage
  | .mkt _ => .mkt
  | .lp _ => .lp
  | .cv _ => .cv
  | .pk _ => .pk
  | .hkey _ => .hkey
  | .nc _ => .nc
  | .sq _ => .sq
  | .sc _ => .sc
  | .dn _ => .dn
  | .cw _ _ => .cw
  | .rl _ => .rl
  | .rlq _ => .rlq
  | .rlh => .rlh
  | .nexthandle => .nexthandle
  | .govnonce => .govnonce
  | .comnonce => .comnonce
  | .committee => .committee
  | .markets => .markets

/-- Keys of different families are different byte strings, whatever their parts, and so are keys of
one family with different parts. -/
theorem Key.never_collide (k k' : Key) :
    (k.family ≠ k'.family → k.bytes ≠ k'.bytes) ∧
      (k.family = k'.family → k ≠ k' → k.bytes ≠ k'.bytes) := by
  constructor
  · intro hfamily hbytes
    exact hfamily (congrArg Key.family (Key.bytes_injective hbytes))
  · intro _ hne hbytes
    exact hne (Key.bytes_injective hbytes)

/-! ### Storage under typed keys -/

/-- The host's byte store. -/
abbrev Storage := Store Bytes UInt8

variable {k : Key} {st st' : Storage} {K L : Set Key}

namespace Storage

/-- `get_storage`. -/
def get (st : Storage) (k : Key) : Option Bytes := st.lookup k.bytes

/-- `get_storage(..).unwrap_or_default()`. -/
def getD (st : Storage) (k : Key) : Bytes := st.read k.bytes

/-- `set_storage`; the host call succeeds. -/
def set (st : Storage) (k : Key) (v : Bytes) : Storage := st.write k.bytes v

/-- `remove_storage`. -/
def del (st : Storage) (k : Key) : Storage := st.remove k.bytes

theorem get_set (st : Storage) (k k' : Key) (v : Bytes) :
    (st.set k v).get k' = if k' = k then (if v.isEmpty then none else some v) else st.get k' := by
  rw [get, set, Store.lookup_write]
  simp only [Key.bytes_injective.eq_iff]
  rfl

theorem get_set_ne (st : Storage) {k' : Key} (v : Bytes) (h : k' ≠ k) :
    (st.set k v).get k' = st.get k' := by
  rw [get_set, if_neg h]

theorem getD_set (st : Storage) (k k' : Key) (v : Bytes) :
    (st.set k v).getD k' = if k' = k then v else st.getD k' := by
  rw [getD, set, Store.read_write]
  simp only [Key.bytes_injective.eq_iff]
  rfl

@[simp] theorem getD_set_same (st : Storage) (k : Key) (v : Bytes) : (st.set k v).getD k = v := by
  rw [getD_set, if_pos rfl]

theorem getD_set_ne (st : Storage) {k' : Key} (v : Bytes) (h : k' ≠ k) :
    (st.set k v).getD k' = st.getD k' := by
  rw [getD_set, if_neg h]

theorem getD_eq_of_get_eq (h : st.get k = st'.get k) : st.getD k = st'.getD k :=
  congrArg (fun v ↦ v.getD []) h

/-- Nothing but the keys in `K` differs between the two storages. -/
def Frame (K : Set Key) (st st' : Storage) : Prop :=
  Store.AgreeOutside (Set.image Key.bytes K) st st'

theorem Frame.refl (K : Set Key) (st : Storage) : Frame K st st := Store.AgreeOutside.refl _ st

theorem Frame.trans {st'' : Storage} (h : Frame K st st') (h' : Frame K st' st'') :
    Frame K st st'' :=
  Store.AgreeOutside.trans h h'

theorem Frame.mono (h : Frame K st st') (hKL : K ⊆ L) : Frame L st st' :=
  Store.AgreeOutside.mono h (Set.image_mono hKL)

/-- Frames in sequence. -/
theorem Frame.seq {st'' : Storage} (h : Frame K st st') (h' : Frame L st' st'') :
    Frame (K ∪ L) st st'' :=
  (h.mono Set.subset_union_left).trans (h'.mono Set.subset_union_right)

theorem frame_set (st : Storage) (v : Bytes) (hk : k ∈ K) : Frame K st (st.set k v) :=
  Store.agreeOutside_write st v (Set.mem_image_of_mem _ hk)

theorem frame_set_self (st : Storage) (k : Key) (v : Bytes) : Frame {k} st (st.set k v) :=
  frame_set st v rfl

theorem Frame.set (h : Frame K st st') (v : Bytes) (hk : k ∈ K) : Frame K st (st'.set k v) :=
  h.trans (frame_set st' v hk)

theorem frame_foldl {β : Type*} (step : Storage → β → Storage) (xs : List β)
    (hstep : ∀ st, ∀ x ∈ xs, Frame K st (step st x)) (st : Storage) :
    Frame K st (xs.foldl step st) :=
  Store.agreeOutside_foldl step xs hstep st

theorem Frame.get_eq (h : Frame K st st') (hk : k ∉ K) : st'.get k = st.get k := by
  refine (h k.bytes ?_).symm
  rintro ⟨k', hk', heq⟩
  exact hk (Key.bytes_injective heq ▸ hk')

theorem Frame.getD_eq (h : Frame K st st') (hk : k ∉ K) : st'.getD k = st.getD k :=
  getD_eq_of_get_eq (h.get_eq hk)

/-- The two storages read the same under the keys in `K`. -/
def AgreeOn (K : Set Key) (st st' : Storage) : Prop := ∀ k ∈ K, st.getD k = st'.getD k

theorem AgreeOn.set (h : AgreeOn K st st') (k : Key) (v : Bytes) :
    AgreeOn K (st.set k v) (st'.set k v) := by
  intro k' hk'
  rw [getD_set, getD_set]
  split_ifs with heq
  · rfl
  · exact h k' hk'

theorem Frame.agreeOn (h : Frame K st st') (hdisjoint : ∀ k ∈ K, k ∉ L) : AgreeOn L st' st :=
  fun k hk ↦ h.getD_eq fun hK ↦ hdisjoint k hK hk

end Storage

end Jamswap.Service
