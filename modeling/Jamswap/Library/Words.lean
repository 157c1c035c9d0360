import Jamswap.Library.Bytes
import Mathlib.Algebra.BigOperators.Group.List.Basic
import Mathlib.Data.UInt

/-!
# Machine words and their little-endian bytes

Unsigned machine words are Lean's `UInt16`, `UInt32` and `UInt64`, whose arithmetic wraps. The
module gives their little-endian codecs with the round trips in both directions, byte arrays whose
length is part of the type, saturating addition and subtraction, and the value of a wrapping sum
(`toNat_sum_of_lt`): it is the true sum as soon as that one fits.
-/

namespace Jamswap.Library

/-! ### Little-endian integers -/

/-- The `width` low bytes of `n`, least significant first. -/
def leBytes : ℕ → ℕ → Bytes
  | 0, _ => []
  | width + 1, n => UInt8.ofNat n :: leBytes width (n / 256)

/-- The number a byte string denotes, least significant byte first. -/
def leValue (b : Bytes) : ℕ := Nat.ofDigits 256 (b.map UInt8.toNat)

@[simp] theorem length_leBytes (width n : ℕ) : (leBytes width n).length = width := by
  induction width generalizing n with
  | zero => rfl
  | succ width ih => rw [leBytes, List.length_cons, ih]

@[simp] theorem leValue_nil : leValue [] = 0 := rfl

theorem leValue_cons (x : UInt8) (b : Bytes) :
    leValue (x :: b) = x.toNat + 256 * leValue b := by
  simp [leValue, Nat.ofDigits_cons]

theorem leValue_take_le (n : ℕ) (b : Bytes) : leValue (b.take n) ≤ leValue b := by
  induction b generalizing n with
  | nil => simp
  | cons x b ih =>
    cases n with
    | zero => exact Nat.zero_le _
    | succ n =>
      rw [List.take_succ_cons, leValue_cons, leValue_cons]
      exact Nat.add_le_add_left (Nat.mul_le_mul_left _ (ih n)) _

variable (b : Bytes) {width : ℕ} {y : UInt64} {xs : List UInt64}

theorem leValue_lt : leValue b < 256 ^ b.length := by
  have hdigits : ∀ d ∈ b.map UInt8.toNat, d < 256 := by
    intro d hd
    obtain ⟨x, -, rfl⟩ := List.mem_map.mp hd
    exact x.toNat_lt
  simpa [leValue] using Nat.ofDigits_lt_base_pow_length (by norm_num) hdigits

theorem leValue_leBytes (width n : ℕ) : leValue (leBytes width n) = n % 256 ^ width := by
  induction width generalizing n with
  | zero => simp [leBytes, Nat.mod_one]
  | succ width ih =>
    have hlow : (UInt8.ofNat n).toNat = n % 256 := UInt8.toNat_ofNat'
    rw [leBytes, leValue_cons, ih, hlow, Nat.pow_succ, Nat.mul_comm _ 256, Nat.mod_mul]

theorem leBytes_leValue : leBytes b.length (leValue b) = b := by
  induction b with
  | nil => rfl
  | cons x b ih =>
    have hx := x.toNat_lt
    have hlow : UInt8.ofNat (x.toNat + 256 * leValue b) = x := by
      rw [← UInt8.toNat_inj, UInt8.toNat_ofNat']
      omega
    have hhigh : (x.toNat + 256 * leValue b) / 256 = leValue b := by omega
    rw [List.length_cons, leValue_cons, leBytes, hlow, hhigh, ih]

/-- The `width` low bytes of `n`, most significant first. -/
def beBytes (width n : ℕ) : Bytes := (leBytes width n).reverse

/-- The number a byte string denotes, most significant byte first. -/
def beValue (b : Bytes) : ℕ := leValue b.reverse

@[simp] theorem length_beBytes (width n : ℕ) : (beBytes width n).length = width := by
  rw [beBytes, List.length_reverse, length_leBytes]

theorem beValue_lt : beValue b < 256 ^ b.length := by
  have hlt := leValue_lt b.reverse
  rwa [List.length_reverse] at hlt

theorem beValue_beBytes (width n : ℕ) : beValue (beBytes width n) = n % 256 ^ width := by
  rw [beValue, beBytes, List.reverse_reverse, leValue_leBytes]

theorem beBytes_beValue : beBytes b.length (beValue b) = b := by
  rw [beBytes, beValue, ← List.length_reverse, leBytes_leValue, List.reverse_reverse]

/-- The byte at position `i`, zero past the end. -/
def byteAt (b : Bytes) (i : ℕ) : UInt8 := b.getD i 0

/-- Little-endian bytes of a 16-bit word. -/
def u16Bytes (x : UInt16) : Bytes := leBytes 2 x.toNat

/-- Little-endian bytes of a 32-bit word. -/
def u32Bytes (x : UInt32) : Bytes := leBytes 4 x.toNat

/-- Little-endian bytes of a 64-bit word. -/
def u64Bytes (x : UInt64) : Bytes := leBytes 8 x.toNat

/-- The 16-bit word at offset `off`. -/
def u16At (b : Bytes) (off : ℕ) : UInt16 := UInt16.ofNat (leValue (slice b off (off + 2)))

/-- The 32-bit word at offset `off`. -/
def u32At (b : Bytes) (off : ℕ) : UInt32 := UInt32.ofNat (leValue (slice b off (off + 4)))

/-- The 64-bit word at offset `off`; a field cut short reads as if padded with zero bytes. -/
def u64At (b : Bytes) (off : ℕ) : UInt64 := UInt64.ofNat (leValue (slice b off (off + 8)))

/-- The first word of a value is at most the value read as one number. -/
theorem toNat_u64At_zero_le : (u64At b 0).toNat ≤ leValue b := by
  have hslice : slice b 0 (0 + 8) = b.take 8 := by simp [slice]
  rw [u64At, hslice, UInt64.toNat_ofNat']
  exact (Nat.mod_le _ _).trans (leValue_take_le 8 b)

@[simp] theorem length_u16Bytes (x : UInt16) : (u16Bytes x).length = 2 := length_leBytes _ _
@[simp] theorem length_u32Bytes (x : UInt32) : (u32Bytes x).length = 4 := length_leBytes _ _
@[simp] theorem length_u64Bytes (x : UInt64) : (u64Bytes x).length = 8 := length_leBytes _ _

theorem leValue_u16Bytes (x : UInt16) : leValue (u16Bytes x) = x.toNat := by
  rw [u16Bytes, leValue_leBytes]
  exact Nat.mod_eq_of_lt x.toNat_lt

theorem leValue_u32Bytes (x : UInt32) : leValue (u32Bytes x) = x.toNat := by
  rw [u32Bytes, leValue_leBytes]
  exact Nat.mod_eq_of_lt x.toNat_lt

theorem leValue_u64Bytes (x : UInt64) : leValue (u64Bytes x) = x.toNat := by
  rw [u64Bytes, leValue_leBytes]
  exact Nat.mod_eq_of_lt x.toNat_lt

theorem u64Bytes_injective : Function.Injective u64Bytes := by
  intro x y h
  rw [← UInt64.toNat_inj, ← leValue_u64Bytes x, h, leValue_u64Bytes]

theorem u32Bytes_injective : Function.Injective u32Bytes := by
  intro x y h
  rw [← UInt32.toNat_inj, ← leValue_u32Bytes x, h, leValue_u32Bytes]

variable {r s b rest : Bytes} {x : UInt64} {i off : ℕ}

/-- A field of fixed width in front of a string is determined by it. -/
theorem append_inj_of_width {β : Type*} {encode : β → Bytes}
    (hwidth : ∀ x, (encode x).length = width) (hencode : Function.Injective encode) {x y : β} :
    encode x ++ r = encode y ++ s ↔ x = y ∧ r = s := by
  constructor
  · intro h
    obtain ⟨hfirst, hrest⟩ := List.append_inj h ((hwidth x).trans (hwidth y).symm)
    exact ⟨hencode hfirst, hrest⟩
  · rintro ⟨rfl, rfl⟩
    rfl

theorem u32Bytes_append_inj {x y : UInt32} : u32Bytes x ++ r = u32Bytes y ++ s ↔ x = y ∧ r = s :=
  append_inj_of_width length_u32Bytes u32Bytes_injective

theorem u64Bytes_append_inj : u64Bytes x ++ r = u64Bytes y ++ s ↔ x = y ∧ r = s :=
  append_inj_of_width length_u64Bytes u64Bytes_injective

theorem Cursor.byteAt_eq {x : UInt8} (h : Cursor b i [x] rest) : byteAt b i = x := by
  rw [byteAt, List.getD_eq_getElem?_getD, ← List.head?_drop, h.reads]
  rfl

theorem Cursor.u16At_eq {x : UInt16} (h : Cursor b i (u16Bytes x) rest) : u16At b i = x := by
  rw [u16At, h.slice_eq (by simp), leValue_u16Bytes, UInt16.ofNat_toNat]

theorem Cursor.u32At_eq {x : UInt32} (h : Cursor b i (u32Bytes x) rest) : u32At b i = x := by
  rw [u32At, h.slice_eq (by simp), leValue_u32Bytes, UInt32.ofNat_toNat]

theorem Cursor.u64At_eq (h : Cursor b i (u64Bytes x) rest) : u64At b i = x := by
  rw [u64At, h.slice_eq (by simp), leValue_u64Bytes, UInt64.ofNat_toNat]

@[simp] theorem u32At_u32Bytes_append (x : UInt32) (rest : Bytes) :
    u32At (u32Bytes x ++ rest) 0 = x :=
  (Cursor.start (u32Bytes x) rest).u32At_eq

@[simp] theorem u32At_u32Bytes (x : UInt32) : u32At (u32Bytes x) 0 = x := by
  simpa using u32At_u32Bytes_append x []

@[simp] theorem u64At_u64Bytes_append (x : UInt64) (rest : Bytes) :
    u64At (u64Bytes x ++ rest) 0 = x :=
  (Cursor.start (u64Bytes x) rest).u64At_eq

@[simp] theorem u64At_u64Bytes (x : UInt64) : u64At (u64Bytes x) 0 = x := by
  simpa using u64At_u64Bytes_append x []

/-- A 32-bit word read as a 64-bit one, the missing bytes reading as zero. -/
theorem u64At_u32Bytes (x : UInt32) : u64At (u32Bytes x) 0 = x.toUInt64 := by
  have hslice : slice (u32Bytes x) 0 (0 + 8) = u32Bytes x := by
    rw [slice, List.drop_zero, List.take_of_length_le (by simp)]
  have hx := x.toNat_lt
  rw [u64At, hslice, leValue_u32Bytes, ← UInt64.toNat_inj, UInt64.toNat_ofNat',
    UInt32.toNat_toUInt64]
  omega

/-- A field of `width` bytes holds a number below `256 ^ width`, and is that number's bytes. -/
theorem leBytes_leValue_slice (h : off + width ≤ b.length) :
    leValue (slice b off (off + width)) < 256 ^ width ∧
      leBytes width (leValue (slice b off (off + width))) = slice b off (off + width) := by
  have hlen : (slice b off (off + width)).length = width := by
    rw [length_slice b _ _ h]
    omega
  have hlt := leValue_lt (slice b off (off + width))
  have hbytes := leBytes_leValue (slice b off (off + width))
  rw [hlen] at hlt hbytes
  exact ⟨hlt, hbytes⟩

/-- Reading a 32-bit field and writing it back gives the same four bytes. -/
theorem u32Bytes_u32At (h : off + 4 ≤ b.length) :
    u32Bytes (u32At b off) = slice b off (off + 4) := by
  obtain ⟨hlt, hbytes⟩ := leBytes_leValue_slice h
  rw [u32Bytes, u32At, UInt32.toNat_ofNat', Nat.mod_eq_of_lt (show _ < 2 ^ 32 from hlt), hbytes]

theorem u64Bytes_u64At (h : off + 8 ≤ b.length) :
    u64Bytes (u64At b off) = slice b off (off + 8) := by
  obtain ⟨hlt, hbytes⟩ := leBytes_leValue_slice h
  rw [u64Bytes, u64At, UInt64.toNat_ofNat', Nat.mod_eq_of_lt (show _ < 2 ^ 64 from hlt), hbytes]

/-- One byte as a field. -/
theorem singleton_byteAt (h : i < b.length) : [byteAt b i] = slice b i (i + 1) := by
  rw [slice, byteAt, List.getD_eq_getElem?_getD, List.getElem?_eq_getElem h,
    List.drop_eq_getElem_cons h, Nat.add_sub_cancel_left]
  rfl

theorem byteAt_slice {j k : ℕ} (h : k < j - i) : byteAt (slice b i j) k = byteAt b (i + k) := by
  rw [byteAt, byteAt, slice, List.getD_eq_getElem?_getD, List.getD_eq_getElem?_getD,
    List.getElem?_take_of_lt h, List.getElem?_drop]

/-! ### Byte arrays of a fixed length -/

/-- A byte array of length `n`. -/
def FixedBytes (n : ℕ) := { b : Bytes // b.length = n }

namespace FixedBytes

variable {n : ℕ}

instance : DecidableEq (FixedBytes n) := inferInstanceAs (DecidableEq { b : Bytes // b.length = n })

/-- Copy a string into a zeroed array of length `n`. -/
def ofBytes (n : ℕ) (b : Bytes) : FixedBytes n :=
  ⟨(b ++ List.replicate n 0).take n, by simp⟩

theorem val_ofBytes (h : b.length = n) : (ofBytes n b).val = b := by
  subst h
  exact List.take_left

@[simp] theorem ofBytes_val (a : FixedBytes n) : ofBytes n a.val = a :=
  Subtype.ext (val_ofBytes a.property)

@[simp] theorem length_val (a : FixedBytes n) : a.val.length = n := a.property

theorem val_append_inj {a b : FixedBytes n} : a.val ++ r = b.val ++ s ↔ a = b ∧ r = s :=
  append_inj_of_width length_val fun _ _ ↦ Subtype.ext

end FixedBytes

/-! ### Saturating arithmetic and wrapping sums -/

/-- Addition that stops at the largest 64-bit word. -/
def satAdd (x y : UInt64) : UInt64 :=
  if x.toNat + y.toNat < 2 ^ 64 then x + y else UInt64.ofNat (2 ^ 64 - 1)

/-- Subtraction that stops at zero. -/
def satSub (x y : UInt64) : UInt64 := if y ≤ x then x - y else 0

/-- 32-bit addition that stops at the largest word. -/
def satAdd32 (x y : UInt32) : UInt32 :=
  if x.toNat + y.toNat < 2 ^ 32 then x + y else UInt32.ofNat (2 ^ 32 - 1)

theorem toNat_satAdd (x y : UInt64) :
    (satAdd x y).toNat = min (x.toNat + y.toNat) (2 ^ 64 - 1) := by
  unfold satAdd
  split_ifs with h
  · rw [UInt64.toNat_add, Nat.mod_eq_of_lt h]
    omega
  · rw [UInt64.toNat_ofNat']
    omega

theorem toNat_satAdd_of_lt (h : x.toNat + y.toNat < 2 ^ 64) :
    (satAdd x y).toNat = x.toNat + y.toNat := by
  rw [toNat_satAdd]
  omega

theorem le_toNat_satAdd (x y : UInt64) : x.toNat ≤ (satAdd x y).toNat := by
  have hlt := x.toNat_lt
  rw [toNat_satAdd]
  omega

theorem toNat_satSub (x y : UInt64) : (satSub x y).toNat = x.toNat - y.toNat := by
  unfold satSub
  split_ifs with h
  · exact UInt64.toNat_sub_of_le _ _ h
  · rw [UInt64.le_iff_toNat_le] at h
    simp
    omega

theorem toNat_satAdd32 (x y : UInt32) :
    (satAdd32 x y).toNat = min (x.toNat + y.toNat) (2 ^ 32 - 1) := by
  unfold satAdd32
  split_ifs with h
  · rw [UInt32.toNat_add, Nat.mod_eq_of_lt h]
    omega
  · rw [UInt32.toNat_ofNat']
    omega

theorem toNat_sum (xs : List UInt64) : xs.sum.toNat = (xs.map UInt64.toNat).sum % 2 ^ 64 := by
  induction xs with
  | nil => rfl
  | cons x xs ih => rw [List.sum_cons, List.map_cons, List.sum_cons, UInt64.toNat_add, ih,
      Nat.add_mod_mod]

theorem toNat_sum_of_lt (h : (xs.map UInt64.toNat).sum < 2 ^ 64) :
    xs.sum.toNat = (xs.map UInt64.toNat).sum := by
  rw [toNat_sum, Nat.mod_eq_of_lt h]

/-- Fewer than `2 ^ 32` words of 32 bits never overflow a 64-bit sum. -/
theorem sum_u32_lt {α : Type*} (f : α → UInt32) (xs : List α) (hlen : xs.length ≤ 2 ^ 32) :
    (xs.map fun x ↦ (f x).toNat).sum < 2 ^ 64 := by
  have hstep : (xs.map fun x ↦ (f x).toNat).sum ≤ xs.length * (2 ^ 32 - 1) := by
    clear hlen
    induction xs with
    | nil => simp
    | cons x xs ih =>
      have := (f x).toNat_lt
      rw [List.map_cons, List.sum_cons, List.length_cons, Nat.succ_mul]
      omega
  calc (xs.map fun x ↦ (f x).toNat).sum
      ≤ xs.length * (2 ^ 32 - 1) := hstep
    _ ≤ 2 ^ 32 * (2 ^ 32 - 1) := Nat.mul_le_mul_right _ hlen
    _ < 2 ^ 64 := by norm_num

theorem sum_u64_eq_zero (h : ∀ x ∈ xs, x = 0) : xs.sum = 0 := by
  induction xs with
  | nil => rfl
  | cons x xs ih =>
    rw [List.sum_cons, h x List.mem_cons_self, ih fun y hy ↦ h y (List.mem_cons_of_mem x hy)]
    rfl

end Jamswap.Library
