import Jamswap.Library.Words

/-!
# Buffers whose accesses may fault

An index or a range outside its buffer, or a copy between buffers of different lengths, stops the
program. `Access` is the type of computations that may stop in this way, and `index`, `range`,
`copy` and the reads of words built from them are its accesses. Each has one rule: inside the buffer
it returns what the total function of the same field returns. `Parse` adds the early return of a
parser that gives up, and `Runs` follows a parser next to the optional value it computes: the
parser finishes, with that value.
-/

namespace Jamswap.Library

/-- Why an access stops the program. -/
inductive Fault
  | index (i len : ℕ)
  | range (i j len : ℕ)
  | copy (dst src : ℕ)
  deriving DecidableEq, Repr

/-- A computation that may fault. -/
abbrev Access := Except Fault

variable {i j off width : ℕ} {b : Bytes} {n : ℕ}

namespace Access

@[simp] theorem ok_bind {α β : Type} (a : α) (f : α → Access β) : (Except.ok a >>= f) = f a := rfl

section Accesses

variable {α : Type}

/-- `b[i]`. -/
def index (b : List α) (i : ℕ) : Access α :=
  match b[i]? with
  | some x => .ok x
  | none => .error (.index i b.length)

/-- `b[i] = x`. -/
def assign (b : List α) (i : ℕ) (x : α) : Access (List α) :=
  if i < b.length then .ok (b.set i x) else .error (.index i b.length)

/-- `b[i..j]`. -/
def range (b : List α) (i j : ℕ) : Access (List α) :=
  if i ≤ j ∧ j ≤ b.length then .ok (slice b i j) else .error (.range i j b.length)

/-- `b[i..]`. -/
def rangeFrom (b : List α) (i : ℕ) : Access (List α) :=
  if i ≤ b.length then .ok (b.drop i) else .error (.range i b.length b.length)

/-- `dst[i..j].copy_from_slice(src)`. -/
def copy (dst : List α) (i j : ℕ) (src : List α) : Access (List α) := do
  let part ← range dst i j
  if part.length = src.length then .ok (dst.take i ++ src ++ dst.drop j)
  else .error (.copy part.length src.length)

/-- `b.insert(i, x)`. -/
def insertAt (b : List α) (i : ℕ) (x : α) : Access (List α) :=
  if i ≤ b.length then .ok (b.take i ++ x :: b.drop i) else .error (.index i b.length)

/-- `b.remove(0)`: the first element and the others. -/
def removeFirst : List α → Access (α × List α)
  | x :: b => .ok (x, b)
  | [] => .error (.index 0 0)

variable {b : List α}

theorem index_eq {x : α} (h : b[i]? = some x) : index b i = .ok x := by
  rw [index, h]

theorem index_getD (h : i < b.length) (default : α) : index b i = .ok (b.getD i default) := by
  refine index_eq ?_
  rw [List.getD_eq_getElem?_getD, List.getElem?_eq_getElem h, Option.getD_some]

theorem index_cons {a : α} (x : α) (h : index b i = .ok a) : index (x :: b) (i + 1) = .ok a := by
  refine index_eq ?_
  rw [List.getElem?_cons_succ]
  unfold index at h
  split at h
  · rename_i y hy
    rw [hy, Except.ok.inj h]
  · cases h

theorem assign_eq (h : i < b.length) (x : α) : assign b i x = .ok (b.set i x) := if_pos h

theorem insertAt_eq (h : i ≤ b.length) (x : α) :
    insertAt b i x = .ok (b.take i ++ x :: b.drop i) := if_pos h

theorem range_eq (hij : i ≤ j) (hj : j ≤ b.length) :
    range b i j = .ok (slice b i j) := if_pos ⟨hij, hj⟩

theorem rangeFrom_eq (h : i ≤ b.length) : rangeFrom b i = .ok (b.drop i) := if_pos h

theorem copy_eq {dst src : List α} (hij : i ≤ j) (hj : j ≤ dst.length) (hsrc : src.length = j - i) :
    copy dst i j src = .ok (dst.take i ++ src ++ dst.drop j) := by
  rw [copy, range_eq hij hj]
  exact if_pos (by rw [length_slice dst i j hj, hsrc])

end Accesses

/-! ### Words and arrays -/

/-- The byte `b[i]`. -/
theorem index_byte (h : i < b.length) : index b i = .ok (byteAt b i) :=
  index_getD h 0

/-- `u16::from_le_bytes([b[off], b[off + 1]])`. -/
def word16 (b : Bytes) (off : ℕ) : Access UInt16 := do
  let b0 ← index b off
  let b1 ← index b (off + 1)
  .ok (UInt16.ofNat (leValue [b0, b1]))

/-- `u32::from_le_bytes([b[off], …, b[off + 3]])`. -/
def word32 (b : Bytes) (off : ℕ) : Access UInt32 := do
  let b0 ← index b off
  let b1 ← index b (off + 1)
  let b2 ← index b (off + 2)
  let b3 ← index b (off + 3)
  .ok (UInt32.ofNat (leValue [b0, b1, b2, b3]))

/-- `u64::from_le_bytes([b[off], …, b[off + 7]])`. -/
def word64 (b : Bytes) (off : ℕ) : Access UInt64 := do
  let low ← word32 b off
  let high ← word32 b (off + 4)
  .ok (UInt64.ofNat (low.toNat + 2 ^ 32 * high.toNat))

/-- An array of length `n` copied from `src`. -/
def array (n : ℕ) (src : Bytes) : Access (FixedBytes n) :=
  if h : src.length = n then .ok ⟨src, h⟩ else .error (.copy n src.length)

/-- A zeroed array of length `k`, written in two parts that meet at `n`. -/
def twoParts (k n : ℕ) (x y : Bytes) : Access Bytes := do
  let e ← copy (List.replicate k 0) 0 n x
  copy e n k y

theorem twoParts_eq {k : ℕ} {x y : Bytes} (hx : x.length = n) (hy : n + y.length = k) :
    twoParts k n x y = .ok (x ++ y) := by
  rw [twoParts, copy_eq (Nat.zero_le _) (by simp; omega) (by omega), ok_bind,
    copy_eq (by omega) (by simp; omega) (by omega)]
  simp only [List.take_zero, List.nil_append, ← hx, List.take_left, List.drop_append,
    List.drop_replicate, ← hy]
  simp

theorem slice_cons (hi : i < b.length) (hj : i < j) :
    slice b i j = byteAt b i :: slice b (i + 1) j := by
  have hone : slice b i (i + 1) = [byteAt b i] := (singleton_byteAt hi).symm
  rw [← slice_append_slice b (Nat.le_succ i) hj, hone, List.singleton_append]

theorem slice_self (b : Bytes) (i : ℕ) : slice b i i = [] := by
  rw [slice, Nat.sub_self, List.take_zero]

theorem word16_eq (h : off + 2 ≤ b.length) : word16 b off = .ok (u16At b off) := by
  rw [word16, index_byte (show off < b.length by omega),
    index_byte (show off + 1 < b.length by omega), u16At, slice_cons (by omega) (by omega),
    slice_cons (by omega) (by omega), slice_self]
  rfl

theorem word32_eq (h : off + 4 ≤ b.length) : word32 b off = .ok (u32At b off) := by
  rw [word32, index_byte (show off < b.length by omega),
    index_byte (show off + 1 < b.length by omega), index_byte (show off + 2 < b.length by omega),
    index_byte (show off + 3 < b.length by omega), u32At, slice_cons (by omega) (by omega),
    slice_cons (by omega) (by omega), slice_cons (by omega) (by omega),
    slice_cons (by omega) (by omega), slice_self]
  rfl

theorem word64_eq (h : off + 8 ≤ b.length) : word64 b off = .ok (u64At b off) := by
  have hlow : leValue (slice b off (off + 4)) < 2 ^ 32 :=
    (leBytes_leValue_slice (show off + 4 ≤ b.length by omega)).1
  have hhigh : leValue (slice b (off + 4) (off + 4 + 4)) < 2 ^ 32 :=
    (leBytes_leValue_slice (show off + 4 + 4 ≤ b.length by omega)).1
  have hlen : (slice b off (off + 4)).length = 4 := by
    rw [length_slice _ _ _ (by omega)]
    omega
  have happend : leValue (slice b off (off + 8)) =
      leValue (slice b off (off + 4)) + 2 ^ 32 * leValue (slice b (off + 4) (off + 8)) := by
    rw [← slice_append_slice b (show off ≤ off + 4 by omega) (show off + 4 ≤ off + 8 by omega)]
    simp only [leValue, List.map_append, Nat.ofDigits_append, List.length_map, hlen]
    norm_num
  rw [word64, word32_eq (by omega), word32_eq (by omega), u64At, happend]
  simp only [u32At, bind, Except.bind, UInt32.toNat_ofNat']
  rw [Nat.mod_eq_of_lt hlow, Nat.mod_eq_of_lt hhigh]

theorem array_eq {src : Bytes} (h : src.length = n) :
    array n src = .ok (FixedBytes.ofBytes n src) := by
  rw [array, dif_pos h]
  exact congrArg _ (Subtype.ext (FixedBytes.val_ofBytes h).symm)

/-! ### Loops -/

section Loops

variable {σ β γ : Type} {xs : List β} {f : σ → β → Access σ} {g : σ → β → σ}

/-- A loop whose every pass finishes and keeps its invariant, finishes. -/
theorem foldlM_eq_of_inv {I : σ → Prop} (h : ∀ s, I s → ∀ x ∈ xs, f s x = .ok (g s x) ∧ I (g s x))
    {s : σ} (hs : I s) : xs.foldlM f s = .ok (xs.foldl g s) ∧ I (xs.foldl g s) := by
  induction xs generalizing s with
  | nil => exact ⟨rfl, hs⟩
  | cons x xs ih =>
    obtain ⟨hstep, hinv⟩ := h s hs x List.mem_cons_self
    rw [List.foldlM_cons, hstep]
    exact ih (fun s hs y hy ↦ h s hs y (List.mem_cons_of_mem x hy)) hinv

theorem foldlM_eq (h : ∀ s, ∀ x ∈ xs, f s x = .ok (g s x)) (s : σ) :
    xs.foldlM f s = .ok (xs.foldl g s) :=
  (foldlM_eq_of_inv (I := fun _ ↦ True) (fun s _ x hx ↦ ⟨h s x hx, trivial⟩) trivial).1

theorem mapM_eq {f : β → Access γ} {g : β → γ} (h : ∀ x ∈ xs, f x = .ok (g x)) :
    xs.mapM f = .ok (xs.map g) :=
  mapM_eq_pure h

/-- `for i in 0..b.len() / width`, over the records of the buffer. -/
def eachRecord {α : Type} (width : ℕ) (b : List α) (f : List α → Access γ) : Access (List γ) :=
  (List.range (b.length / width)).mapM fun i ↦ do
    let r ← range b (i * width) ((i + 1) * width)
    f r

theorem record_inside {α : Type} {b : List α} (h : i < b.length / width) :
    i * width ≤ (i + 1) * width ∧ (i + 1) * width ≤ b.length :=
  ⟨Nat.mul_le_mul_right width (Nat.le_succ i),
    (Nat.mul_le_mul_right width h).trans (Nat.div_mul_le_self _ _)⟩

theorem eachRecord_eq {α : Type} {b : List α} {f : List α → Access γ} {g : List α → γ}
    (h : ∀ r, r.length = width → f r = .ok (g r)) :
    eachRecord width b f = .ok ((records width b).map g) := by
  rw [eachRecord, records, List.map_map]
  refine mapM_eq fun i hi ↦ ?_
  obtain ⟨hle, hend⟩ := record_inside (List.mem_range.mp hi)
  rw [range_eq hle hend]
  refine h _ ?_
  rw [length_slice _ _ _ hend, Nat.succ_mul]
  omega

/-- `for i in i..i + left`, stopping at the first `i` the test holds at. -/
def anyFrom (f : ℕ → Access Bool) : ℕ → ℕ → Access Bool
  | 0, _ => .ok false
  | left + 1, i => do
    let found ← f i
    if found then .ok true else anyFrom f left (i + 1)

theorem anyFrom_eq {f : ℕ → Access Bool} {g : ℕ → Bool} {left : ℕ}
    (h : ∀ k, i ≤ k → k < i + left → f k = .ok (g k)) :
    anyFrom f left i = .ok ((List.range' i left).any g) := by
  induction left generalizing i with
  | zero => rfl
  | succ left ih =>
    rw [anyFrom, h i le_rfl (by omega), ok_bind, List.range'_succ, List.any_cons,
      ih fun k hk hlt ↦ h k (by omega) (by omega)]
    cases g i with
    | true | false => rfl

/-- A search through the records of a buffer. -/
theorem anyFrom_records {α : Type} {b : List α} {f : ℕ → Access Bool} {p : List α → Bool}
    (h : ∀ k, k < b.length / width → f k = .ok (p (slice b (k * width) ((k + 1) * width)))) :
    anyFrom f (b.length / width) 0 = .ok ((records width b).any p) := by
  rw [anyFrom_eq fun k _ hk ↦ h k (by omega), ← List.range_eq_range', records, List.any_map]
  rfl

end Loops

end Access

/-! ### Parsers -/

/-- A parser over buffers: it may fault, and it may give up. -/
abbrev Parse := OptionT Access

namespace Parse

variable {α β : Type}

/-- `b.get(i..j)`, which gives no fault. -/
def get {γ : Type} (b : List γ) (i j : ℕ) : Parse (List γ) := OptionT.mk (.ok (sub? b i j))

/-- A checked value that may be missing. -/
def ofOption (o : Option α) : Parse α := OptionT.mk (.ok o)

/-- An access inside a parser. -/
def access (m : Access α) : Parse α := OptionT.lift m

/-- The parser finishes, and its value is `o`. -/
def Runs (m : Parse α) (o : Option α) : Prop := m.run = .ok o

variable {m : Parse α} {o : Option α}

theorem Runs.run_bind (h : Runs m o) (f : Option α → Access β) : m.run >>= f = f o := by
  rw [show m.run = .ok o from h, Access.ok_bind]

theorem Runs.pure (a : α) : Runs (Pure.pure a) (some a) := rfl

theorem Runs.fail : Runs (failure : Parse α) none := rfl

theorem Runs.ofOption (o : Option α) : Runs (Parse.ofOption o) o := rfl

variable {f : α → Parse β} {a : α} {xs : List β}

theorem Runs.bind {g : α → Option β} (hm : Runs m o) (hf : ∀ a, o = some a → Runs (f a) (g a)) :
    Runs (m >>= f) (o.bind g) := by
  have hrun : (m >>= f).run = (m.run >>= fun o ↦ match o with
      | some a => (f a).run
      | none => Pure.pure none) := rfl
  rw [Runs, hrun, show m.run = .ok o from hm]
  cases o with
  | none => rfl
  | some a => exact hf a rfl

theorem Runs.lift {m : Access α} (hm : m = .ok a) : Runs (Parse.access m) (some a) := by
  rw [hm]
  rfl

theorem Runs.access {m : Access α} {o : Option β} (hm : m = .ok a) (hf : Runs (f a) o) :
    Runs (Parse.access m >>= f) o :=
  (Runs.lift hm).bind (g := fun _ ↦ o) fun b hb ↦ by cases hb; exact hf

/-- What a checked range returns lies inside the buffer. -/
theorem Runs.get {γ : Type} {b : List γ} {f : List γ → Parse β} {g : List γ → Option β}
    (hf : i ≤ j → j ≤ b.length → Runs (f (slice b i j)) (g (slice b i j))) :
    Runs (Parse.get b i j >>= f) ((sub? b i j).bind g) := by
  refine Runs.bind (Runs.ofOption _) fun s hs ↦ ?_
  obtain ⟨hij, hj, rfl⟩ := sub?_eq_some_iff.mp hs
  exact hf hij hj

theorem Runs.foldlM {σ : Type} {I : σ → Prop} {f : σ → β → Parse σ} {g : σ → β → Option σ}
    (h : ∀ s, I s → ∀ x ∈ xs, Runs (f s x) (g s x) ∧ ∀ s', g s x = some s' → I s') {s : σ}
    (hs : I s) : Runs (xs.foldlM f s) (xs.foldlM g s) ∧ ∀ s', xs.foldlM g s = some s' → I s' := by
  induction xs generalizing s with
  | nil => exact ⟨Runs.pure s, fun s' hs' ↦ by cases hs'; exact hs⟩
  | cons x xs ih =>
    obtain ⟨hstep, hinv⟩ := h s hs x List.mem_cons_self
    have hrest : ∀ s', I s' → _ := fun s' hs' ↦
      ih (fun s hs y hy ↦ h s hs y (List.mem_cons_of_mem x hy)) hs'
    rw [List.foldlM_cons, List.foldlM_cons]
    refine ⟨hstep.bind fun s' hs' ↦ (hrest s' (hinv s' hs')).1, fun s'' hs'' ↦ ?_⟩
    obtain ⟨s', hs', hfold⟩ := Option.bind_eq_some_iff.mp hs''
    exact (hrest s' (hinv s' hs')).2 s'' hfold

theorem Runs.mapM {γ : Type} {f : β → Parse γ} {g : β → Option γ} (h : ∀ x ∈ xs, Runs (f x) (g x)) :
    Runs (xs.mapM f) (xs.mapM g) := by
  induction xs with
  | nil => exact Runs.pure []
  | cons x xs ih =>
    rw [List.mapM_cons, List.mapM_cons]
    refine Runs.bind (h x List.mem_cons_self) fun y _ ↦ ?_
    refine Runs.bind (ih fun z hz ↦ h z (List.mem_cons_of_mem x hz)) fun ys _ ↦ ?_
    exact Runs.pure _

theorem Runs.ite {c : Prop} [Decidable c] {m' : Parse α} {o' : Option α} (h : c → Runs m o)
    (h' : ¬ c → Runs m' o') : Runs (if c then m else m') (if c then o else o') := by
  split_ifs with hc
  · exact h hc
  · exact h' hc

end Parse

end Jamswap.Library
