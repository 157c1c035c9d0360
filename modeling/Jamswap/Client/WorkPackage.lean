import Jamswap.Client.Naturals
import Jamswap.Library.Reader
import Mathlib.Data.List.Sort

/-!
# Work-packages and their codec

A work-package is written field by field: numbers of a fixed width, hashes of 32 bytes, and blobs
and sequences behind their length as a general natural. Each part is read back off what was written
for it, wherever that stands, and no reader looks past the part it read; so the reader of the whole
package inverts the encoder and rejects every truncation and everything after the end
(`workPackage_codec`). Prerequisites are a set, which the encoder writes in order.
-/

namespace Jamswap.Client

open Library Library.Reader

/-! ### Writing the parts -/

/-- A blob behind its length. -/
def var (blob : Bytes) : Except CodecError Bytes := do
  return (← encNat blob.length) ++ blob

/-- A number in `n` bytes. -/
def u (x n : ℕ) : Except CodecError Bytes :=
  if x < 256 ^ n then .ok (leBytes n x) else .error (.tooBig x n)

def hash (h : Bytes) (what : String) : Except CodecError Bytes :=
  if h.length ≠ 32 then .error (.wrongLength what h.length) else .ok h

/-! ### Reading the parts -/

abbrev Read (α : Type) : Type := Reader UInt8 CodecError α

namespace Read

def take (n : ℕ) : Read Bytes := fun buf i ↦
  if buf.length < i + n then .error (.truncated i n) else .ok (slice buf i (i + n), i + n)

def u (n : ℕ) : Read ℕ := do
  return leValue (← take n)

def nat : Read ℕ := decNat

def blob : Read Bytes := do
  take (← nat)

def seq {α : Type} (item : Read α) : Read (List α) := do
  item.times (← nat)

end Read

/-! ### The types -/

structure RefineContext where
  anchor : Bytes
  anchorSlot : ℕ
  stateRoot : Bytes
  /-- the accumulation-output log super-peak -/
  beefyRoot : Bytes
  lookupAnchor : Bytes
  lookupAnchorSlot : ℕ
  lookupAnchorStateRoot : Bytes
  prerequisites : List Bytes
  deriving DecidableEq, Repr

namespace RefineContext

def encode (c : RefineContext) : Except CodecError Bytes := do
  let prereq := (← c.prerequisites.mapM fun p ↦ hash p "prerequisite").insertionSort (· ≤ ·)
  return (← hash c.anchor "anchor") ++ (← u c.anchorSlot 4) ++
    (← hash c.stateRoot "state_root") ++ (← hash c.beefyRoot "beefy_root") ++
    (← hash c.lookupAnchor "lookup_anchor") ++ (← u c.lookupAnchorSlot 4) ++
    (← hash c.lookupAnchorStateRoot "lookup_anchor_state_root") ++
    (← encNat prereq.length) ++ prereq.flatten

def read : Read RefineContext := do
  return ⟨← Read.take 32, ← Read.u 4, ← Read.take 32, ← Read.take 32, ← Read.take 32, ← Read.u 4,
    ← Read.take 32, ← Read.seq (Read.take 32)⟩

end RefineContext

/-- An imported segment, by the root of its segments or by the hash of the exporting package. -/
structure ImportRef where
  root : Bytes
  index : ℕ
  byPackage : Bool
  deriving DecidableEq, Repr

namespace ImportRef

/-- Bit 15 of the index says which of the two the root is. -/
def encode (r : ImportRef) : Except CodecError Bytes :=
  if ¬ r.index < 2 ^ 15 then .error (.importIndexOutOfRange r.index)
  else do return (← hash r.root "import root") ++ (← u (r.index ||| (r.byPackage.toNat <<< 15)) 2)

def read : Read ImportRef := do
  let root ← Read.take 32
  let i ← Read.u 2
  return ⟨root, i &&& 0x7FFF, i >>> 15 != 0⟩

end ImportRef

structure WorkItem where
  service : ℕ
  codeHash : Bytes
  payload : Bytes
  refineGas : ℕ
  accumulateGas : ℕ
  exportCount : ℕ
  imports : List ImportRef
  /-- hash and length of each -/
  extrinsics : List (Bytes × ℕ)
  deriving DecidableEq, Repr

namespace WorkItem

def encodeExtrinsic (x : Bytes × ℕ) : Except CodecError Bytes := do
  return (← hash x.1 "extrinsic hash") ++ (← u x.2 4)

def encode (w : WorkItem) : Except CodecError Bytes := do
  return (← u w.service 4) ++ (← hash w.codeHash "code_hash") ++ (← u w.refineGas 8) ++
    (← u w.accumulateGas 8) ++ (← u w.exportCount 2) ++ (← var w.payload) ++
    (← encNat w.imports.length) ++ (← w.imports.mapM ImportRef.encode).flatten ++
    (← encNat w.extrinsics.length) ++ (← w.extrinsics.mapM encodeExtrinsic).flatten

def readExtrinsic : Read (Bytes × ℕ) := do
  return (← Read.take 32, ← Read.u 4)

/-- The gas limits and the export count stand before the payload. -/
def read : Read WorkItem := do
  let service ← Read.u 4
  let codeHash ← Read.take 32
  let refineGas ← Read.u 8
  let accumulateGas ← Read.u 8
  let exportCount ← Read.u 2
  let payload ← Read.blob
  return ⟨service, codeHash, payload, refineGas, accumulateGas, exportCount,
    ← Read.seq ImportRef.read, ← Read.seq readExtrinsic⟩

end WorkItem

structure WorkPackage where
  authCodeHost : ℕ
  authCodeHash : Bytes
  context : RefineContext
  items : List WorkItem
  /-- the authorization token -/
  authorization : Bytes
  authorizerConfig : Bytes
  deriving DecidableEq, Repr

namespace WorkPackage

def encode (p : WorkPackage) : Except CodecError Bytes :=
  if p.items.isEmpty then .error .noItems
  else do
    return (← u p.authCodeHost 4) ++ (← hash p.authCodeHash "auth_code_hash") ++
      (← p.context.encode) ++ (← var p.authorization) ++ (← var p.authorizerConfig) ++
      (← encNat p.items.length) ++ (← p.items.mapM WorkItem.encode).flatten

def read : Read WorkPackage := do
  let host ← Read.u 4
  let codeHash ← Read.take 32
  let context ← RefineContext.read
  let token ← Read.blob
  let config ← Read.blob
  let items ← Read.seq WorkItem.read
  return ⟨host, codeHash, context, items, token, config⟩

def decode (data : Bytes) : Except CodecError WorkPackage := whole .trailing read data

end WorkPackage

/-! ### The parts are read back -/

/-- The encoding of a natural in range. -/
def natBytes (x : ℕ) : Bytes := form (width x) x

section Parts

variable {b e : Bytes} {x n : ℕ} {α : Type} {item : Read α}

theorem hash_eq (h : b.length = 32) (what : String) : hash b what = .ok b := by
  rw [hash, if_neg (not_not.mpr h)]

theorem u_eq (h : x < 256 ^ n) : u x n = .ok (leBytes n x) := if_pos h

theorem var_eq (h : b.length < 2 ^ 64) : var b = .ok (natBytes b.length ++ b) := by
  rw [var, encNat_eq h]
  rfl

theorem reads_take (h : b.length = n) : Reads (Read.take n) b b := by
  intro buf i after hcursor
  have hlength := hcursor.length_eq
  rw [Read.take, if_neg (by omega), hcursor.slice_eq (by rw [h]), h]

theorem reads_u (h : x < 256 ^ n) : Reads (Read.u n) (leBytes n x) x := by
  have hread := (reads_take (length_leBytes n x)).map leValue
  rwa [leValue_leBytes, Nat.mod_eq_of_lt h] at hread

theorem reads_nat (h : x < 2 ^ 64) : Reads Read.nat (natBytes x) x :=
  fun _ _ _ hcursor ↦ decNat_form h hcursor

theorem reads_blob (h : b.length < 2 ^ 64) :
    Reads Read.blob (natBytes b.length ++ b) b :=
  (reads_nat h).bind (reads_take rfl)

theorem reads_seq {xs : List α} (h : xs.length < 2 ^ 64)
    (hitems : Reads (item.times xs.length) e xs) :
    Reads (Read.seq item) (natBytes xs.length ++ e) xs :=
  (reads_nat h).bind hitems

theorem stable_take (n : ℕ) : Stable (Read.take n) := by
  intro buf i x j h more
  rw [Read.take] at h ⊢
  split_ifs at h with hshort
  cases h
  rw [List.length_append, if_neg (by omega), slice, slice,
    List.drop_append_of_le_length (by omega), List.take_append_of_le_length]
  rw [List.length_drop]
  omega

theorem stable_u (n : ℕ) : Stable (Read.u n) := (stable_take n).bind fun _ ↦ Stable.pure _

theorem stable_nat : Stable Read.nat := by
  refine Stable.of_sound fun buf i x j h ↦ ?_
  obtain ⟨hx, after, hcursor, hj⟩ := decNat_sound h
  exact ⟨_, after, reads_nat hx, hcursor, hj⟩

theorem stable_blob : Stable Read.blob := stable_nat.bind stable_take

theorem stable_seq (h : Stable item) : Stable (Read.seq item) := stable_nat.bind h.times

end Parts

/-! ### Fields in range -/

structure RefineContext.InRange (c : RefineContext) : Prop where
  anchor : c.anchor.length = 32
  anchorSlot : c.anchorSlot < 2 ^ 32
  stateRoot : c.stateRoot.length = 32
  beefyRoot : c.beefyRoot.length = 32
  lookupAnchor : c.lookupAnchor.length = 32
  lookupAnchorSlot : c.lookupAnchorSlot < 2 ^ 32
  lookupAnchorStateRoot : c.lookupAnchorStateRoot.length = 32
  prerequisites : ∀ p ∈ c.prerequisites, p.length = 32
  prerequisiteCount : c.prerequisites.length < 2 ^ 64

structure ImportRef.InRange (r : ImportRef) : Prop where
  root : r.root.length = 32
  index : r.index < 2 ^ 15

structure WorkItem.InRange (w : WorkItem) : Prop where
  service : w.service < 2 ^ 32
  codeHash : w.codeHash.length = 32
  payload : w.payload.length < 2 ^ 64
  refineGas : w.refineGas < 2 ^ 64
  accumulateGas : w.accumulateGas < 2 ^ 64
  exportCount : w.exportCount < 2 ^ 16
  imports : ∀ r ∈ w.imports, r.InRange
  importCount : w.imports.length < 2 ^ 64
  extrinsics : ∀ x ∈ w.extrinsics, x.1.length = 32 ∧ x.2 < 2 ^ 32
  extrinsicCount : w.extrinsics.length < 2 ^ 64

structure WorkPackage.InRange (p : WorkPackage) : Prop where
  authCodeHost : p.authCodeHost < 2 ^ 32
  authCodeHash : p.authCodeHash.length = 32
  context : p.context.InRange
  items : ∀ w ∈ p.items, w.InRange
  itemCount : p.items.length < 2 ^ 64
  authorization : p.authorization.length < 2 ^ 64
  authorizerConfig : p.authorizerConfig.length < 2 ^ 64

/-! ### Each type is read back -/

/-- The context with its prerequisites in order. -/
def RefineContext.sorted (c : RefineContext) : RefineContext :=
  { c with prerequisites := c.prerequisites.insertionSort (· ≤ ·) }

/-- The flag beside the index: both come back from the word they are packed into. -/
theorem packed_index {index : ℕ} (h : index < 2 ^ 15) (flag : Bool) :
    (index ||| (flag.toNat <<< 15)) < 2 ^ 16 ∧ (index ||| (flag.toNat <<< 15)) &&& 0x7FFF = index ∧
      ((index ||| (flag.toNat <<< 15)) >>> 15 != 0) = flag := by
  have hor : index ||| (flag.toNat <<< 15) = 2 ^ 15 * flag.toNat + index := by
    rw [Nat.two_pow_add_eq_or_of_lt h, Nat.shiftLeft_eq, Nat.mul_comm, Nat.or_comm]
  have hflag : flag.toNat ≤ 1 := Bool.toNat_le flag
  rw [hor, show (0x7FFF : ℕ) = 2 ^ 15 - 1 from rfl, Nat.and_two_pow_sub_one_eq_mod,
    Nat.shiftRight_eq_div_pow]
  refine ⟨by omega, by omega, ?_⟩
  have hhigh : (2 ^ 15 * flag.toNat + index) / 2 ^ 15 = flag.toNat := by omega
  rw [hhigh]
  cases flag <;> rfl

theorem ImportRef.InRange.coded {r : ImportRef} (h : r.InRange) :
    ∃ e, r.encode = .ok e ∧ Reads ImportRef.read e r := by
  obtain ⟨hword, hindex, hflag⟩ := packed_index h.index r.byPackage
  have hlen : (r.index ||| (r.byPackage.toNat <<< 15)) < 256 ^ 2 := hword
  refine ⟨r.root ++ leBytes 2 (r.index ||| (r.byPackage.toNat <<< 15)), ?_, ?_⟩
  · rw [ImportRef.encode, if_neg (not_not.mpr h.index), hash_eq h.root, u_eq hlen]
    rfl
  · have hread := (reads_u hlen).map fun i ↦ (⟨r.root, i &&& 0x7FFF, i >>> 15 != 0⟩ : ImportRef)
    rw [hindex, hflag] at hread
    exact (reads_take h.root).bind hread

theorem reads_extrinsic {x : Bytes × ℕ} (h : x.1.length = 32 ∧ x.2 < 2 ^ 32) :
    ∃ e, WorkItem.encodeExtrinsic x = .ok e ∧ Reads WorkItem.readExtrinsic e x := by
  have hlen : x.2 < 256 ^ 4 := h.2
  refine ⟨x.1 ++ leBytes 4 x.2, ?_, ?_⟩
  · rw [WorkItem.encodeExtrinsic, hash_eq h.1, u_eq hlen]
    rfl
  · exact (reads_take h.1).bind ((reads_u hlen).map fun n ↦ (x.1, n))

theorem mapM_hash (what : String) {ps : List Bytes} (h : ∀ p ∈ ps, p.length = 32) :
    ps.mapM (fun p ↦ hash p what) = .ok ps := by
  refine (mapM_eq_pure (g := id) fun p hp ↦ hash_eq (h p hp) what).trans ?_
  rw [List.map_id]
  rfl

theorem reads_hashes {ps : List Bytes} (h : ∀ p ∈ ps, p.length = 32) :
    Reads ((Read.take 32).times ps.length) ps.flatten ps := by
  obtain ⟨es, hwrites, hreads⟩ := Reads.times fun p hp ↦
    ⟨p, hash_eq (h p hp) "", reads_take (h p hp)⟩
  rw [mapM_hash "" h, Except.ok.injEq] at hwrites
  rwa [← hwrites] at hreads

theorem RefineContext.InRange.coded {c : RefineContext} (h : c.InRange) :
    ∃ e, c.encode = .ok e ∧ Reads RefineContext.read e c.sorted := by
  have hperm := List.perm_insertionSort (· ≤ ·) c.prerequisites
  have hcount : (c.prerequisites.insertionSort (· ≤ ·)).length < 2 ^ 64 := by
    rw [hperm.length_eq]
    exact h.prerequisiteCount
  have hslot : c.anchorSlot < 256 ^ 4 := h.anchorSlot
  have hlookup : c.lookupAnchorSlot < 256 ^ 4 := h.lookupAnchorSlot
  refine ⟨c.anchor ++ (leBytes 4 c.anchorSlot ++ (c.stateRoot ++ (c.beefyRoot ++
    (c.lookupAnchor ++ (leBytes 4 c.lookupAnchorSlot ++ (c.lookupAnchorStateRoot ++
      (natBytes (c.prerequisites.insertionSort (· ≤ ·)).length ++
        (c.prerequisites.insertionSort (· ≤ ·)).flatten))))))), ?_, ?_⟩
  · simp only [RefineContext.encode, mapM_hash _ h.prerequisites, hash_eq h.anchor, u_eq hslot,
      hash_eq h.stateRoot, hash_eq h.beefyRoot, hash_eq h.lookupAnchor, u_eq hlookup,
      hash_eq h.lookupAnchorStateRoot]
    change (encNat (c.prerequisites.insertionSort (· ≤ ·)).length).bind _ = _
    rw [encNat_eq hcount]
    simp only [Except.bind, List.append_assoc]
    rfl
  · refine (reads_take h.anchor).bind ((reads_u hslot).bind ((reads_take h.stateRoot).bind
      ((reads_take h.beefyRoot).bind ((reads_take h.lookupAnchor).bind ((reads_u hlookup).bind
        ((reads_take h.lookupAnchorStateRoot).bind
          ((reads_seq hcount (reads_hashes ?_)).map _)))))))
    exact fun p hp ↦ h.prerequisites p (hperm.mem_iff.mp hp)

theorem WorkItem.InRange.coded {w : WorkItem} (h : w.InRange) :
    ∃ e, w.encode = .ok e ∧ Reads WorkItem.read e w := by
  obtain ⟨is, hwriteImports, hreadImports⟩ := Reads.times fun r hr ↦ (h.imports r hr).coded
  obtain ⟨xs, hwriteExtrinsics, hreadExtrinsics⟩ :=
    Reads.times fun x hx ↦ reads_extrinsic (h.extrinsics x hx)
  have hservice : w.service < 256 ^ 4 := h.service
  have hrefine : w.refineGas < 256 ^ 8 := h.refineGas
  have haccumulate : w.accumulateGas < 256 ^ 8 := h.accumulateGas
  have hexports : w.exportCount < 256 ^ 2 := h.exportCount
  refine ⟨leBytes 4 w.service ++ (w.codeHash ++ (leBytes 8 w.refineGas ++
    (leBytes 8 w.accumulateGas ++ (leBytes 2 w.exportCount ++ (natBytes w.payload.length ++
      w.payload ++ (natBytes w.imports.length ++ is.flatten ++
        (natBytes w.extrinsics.length ++ xs.flatten))))))), ?_, ?_⟩
  · simp only [WorkItem.encode, u_eq hservice, hash_eq h.codeHash, u_eq hrefine, u_eq haccumulate,
      u_eq hexports, var_eq h.payload, encNat_eq h.importCount, encNat_eq h.extrinsicCount,
      hwriteImports, hwriteExtrinsics, bind, Except.bind, List.append_assoc]
    rfl
  · exact (reads_u hservice).bind ((reads_take h.codeHash).bind ((reads_u hrefine).bind
      ((reads_u haccumulate).bind ((reads_u hexports).bind ((reads_blob h.payload).bind
        ((reads_seq h.importCount hreadImports).bind
          ((reads_seq h.extrinsicCount hreadExtrinsics).map _)))))))

/-- The package with its prerequisites in order. -/
def WorkPackage.sorted (p : WorkPackage) : WorkPackage := { p with context := p.context.sorted }

theorem WorkPackage.InRange.coded {p : WorkPackage} (hitems : p.items ≠ []) (h : p.InRange) :
    ∃ e, p.encode = .ok e ∧ Reads WorkPackage.read e p.sorted := by
  obtain ⟨ctx, hwriteContext, hreadContext⟩ := h.context.coded
  obtain ⟨ws, hwriteItems, hreadItems⟩ := Reads.times fun w hw ↦ (h.items w hw).coded
  have hhost : p.authCodeHost < 256 ^ 4 := h.authCodeHost
  have hsome : p.items.isEmpty = false := List.isEmpty_eq_false_iff.mpr hitems
  refine ⟨leBytes 4 p.authCodeHost ++ (p.authCodeHash ++ (ctx ++
    (natBytes p.authorization.length ++ p.authorization ++
      (natBytes p.authorizerConfig.length ++ p.authorizerConfig ++
        (natBytes p.items.length ++ ws.flatten))))), ?_, ?_⟩
  · simp only [WorkPackage.encode, hsome, Bool.false_eq_true, if_false, u_eq hhost,
      hash_eq h.authCodeHash, hwriteContext, var_eq h.authorization, var_eq h.authorizerConfig,
      encNat_eq h.itemCount, hwriteItems, bind, Except.bind, List.append_assoc]
    rfl
  · exact (reads_u hhost).bind ((reads_take h.authCodeHash).bind (hreadContext.bind
      ((reads_blob h.authorization).bind ((reads_blob h.authorizerConfig).bind
        ((reads_seq h.itemCount hreadItems).map _)))))

/-! ### No reader looks past what it read -/

theorem stable_context : Stable RefineContext.read :=
  (stable_take 32).bind fun _ ↦ (stable_u 4).bind fun _ ↦ (stable_take 32).bind fun _ ↦
    (stable_take 32).bind fun _ ↦ (stable_take 32).bind fun _ ↦ (stable_u 4).bind fun _ ↦
      (stable_take 32).bind fun _ ↦ (stable_seq (stable_take 32)).bind fun _ ↦ Stable.pure _

theorem stable_importRef : Stable ImportRef.read :=
  (stable_take 32).bind fun _ ↦ (stable_u 2).bind fun _ ↦ Stable.pure _

theorem stable_extrinsic : Stable WorkItem.readExtrinsic :=
  (stable_take 32).bind fun _ ↦ (stable_u 4).bind fun _ ↦ Stable.pure _

theorem stable_workItem : Stable WorkItem.read :=
  (stable_u 4).bind fun _ ↦ (stable_take 32).bind fun _ ↦ (stable_u 8).bind fun _ ↦
    (stable_u 8).bind fun _ ↦ (stable_u 2).bind fun _ ↦ stable_blob.bind fun _ ↦
      (stable_seq stable_importRef).bind fun _ ↦
        (stable_seq stable_extrinsic).bind fun _ ↦ Stable.pure _

theorem stable_workPackage : Stable WorkPackage.read :=
  (stable_u 4).bind fun _ ↦ (stable_take 32).bind fun _ ↦ stable_context.bind fun _ ↦
    stable_blob.bind fun _ ↦ stable_blob.bind fun _ ↦
      (stable_seq stable_workItem).bind fun _ ↦ Stable.pure _

/-- The encoding of a work-package with an item and with its fields in range decodes to the package
with its prerequisites in order, and no strict prefix and no strict extension of it decodes. -/
theorem workPackage_codec (p : WorkPackage) (hitems : p.items ≠ []) (hrange : p.InRange) :
    ∃ e, p.encode = .ok e ∧ WorkPackage.decode e = .ok p.sorted ∧
      (∀ b, b <+: e → b ≠ e → ∃ err, WorkPackage.decode b = .error err) ∧
      ∀ b, e <+: b → e ≠ b → ∃ err, WorkPackage.decode b = .error err := by
  obtain ⟨e, hencode, hread⟩ := hrange.coded hitems
  refine ⟨e, hencode, whole_of_reads hread, ?_, ?_⟩
  · intro b hb hne
    exact whole_of_truncation hread stable_workPackage hb hne
  · rintro b ⟨more, rfl⟩ hne
    refine ⟨_, whole_of_extension hread ?_⟩
    rintro rfl
    exact hne (List.append_nil e).symm

/-- Two prerequisites out of order and an import by package. -/
def samplePackage : WorkPackage where
  authCodeHost := 3
  authCodeHash := List.replicate 32 12
  context := ⟨List.replicate 32 1, 9116722, List.replicate 32 2, List.replicate 32 3,
    List.replicate 32 4, 9116721, List.replicate 32 5, [List.replicate 32 9, List.replicate 32 6]⟩
  items := [⟨7, List.replicate 32 8, [7, 7, 7], 999999999, 9999999, 3,
    [⟨List.replicate 32 10, 7, true⟩], [(List.replicate 32 11, 77)]⟩]
  authorization := [1, 2]
  authorizerConfig := []

theorem workPackage_codec_samplePackage :
    ∃ e, samplePackage.encode = .ok e ∧ ∃ q, WorkPackage.decode e = .ok q ∧
      q.context.prerequisites = [List.replicate 32 6, List.replicate 32 9] ∧
      q.items = samplePackage.items := by
  have hrange : samplePackage.InRange := by
    refine ⟨by decide, by decide, ⟨by decide, by decide, by decide, by decide, by decide, by decide,
      by decide, by decide, by decide⟩, ?_, by decide, by decide, by decide⟩
    intro w hw
    obtain rfl := List.mem_singleton.mp hw
    refine ⟨by decide, by decide, by decide, by decide, by decide, by decide, ?_, by decide,
      by decide, by decide⟩
    intro r hr
    obtain rfl := List.mem_singleton.mp hr
    exact ⟨by decide, by decide⟩
  obtain ⟨e, hencode, hdecode, -⟩ := workPackage_codec samplePackage (by decide) hrange
  exact ⟨e, hencode, _, hdecode, by decide +kernel, rfl⟩

end Jamswap.Client
