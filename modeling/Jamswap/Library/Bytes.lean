import Mathlib.Data.Nat.Digits.Defs
import Mathlib.Data.Nat.Digits.Lemmas
import Mathlib.Tactic.Ring

/-!
# Byte strings with fixed-width fields

A byte string is a list of `UInt8`. This module collects what a fixed-layout codec needs of strings:
their ranges (`slice`, and the checked `sub?`) and strings of equal-width records (`records`).

Round trips are proved with a cursor: `Cursor b i x rest` says that at offset `i` the string `b`
continues with the field `x` and then `rest`. A field is read off a cursor (`Cursor.slice_eq`),
and the cursor then moves past it (`Cursor.next`), so a parser's offsets are followed in the order
the encoder wrote them.
-/

namespace Jamswap.Library

/-- A byte string. -/
abbrev Bytes := List UInt8

instance : LawfulBEq Bytes := inferInstance

variable {i j width : ℕ} {off k : ℕ}

section Slices

variable {α : Type*}

/-- The elements of `b` at positions `i, …, j - 1`. -/
def slice (b : List α) (i j : ℕ) : List α := (b.drop i).take (j - i)

/-- The range `i..j` of `b`, or `none` when it does not lie inside `b`. -/
def sub? (b : List α) (i j : ℕ) : Option (List α) :=
  if i ≤ j ∧ j ≤ b.length then some (slice b i j) else none

/-- The suffix of `b` from position `i`, or `none` when `i` is past the end. -/
def suffix? (b : List α) (i : ℕ) : Option (List α) :=
  if i ≤ b.length then some (b.drop i) else none

theorem length_slice (b : List α) (i j : ℕ) (h : j ≤ b.length) :
    (slice b i j).length = j - i := by
  rw [slice, List.length_take, List.length_drop]
  omega

theorem length_slice_le (b : List α) (i j : ℕ) : (slice b i j).length ≤ b.length := by
  rw [slice, List.length_take, List.length_drop]
  omega

variable {b x rest : List α}

theorem sub?_eq_some_iff : sub? b i j = some x ↔ i ≤ j ∧ j ≤ b.length ∧ x = slice b i j := by
  unfold sub?
  split_ifs with h
  · simp [h, eq_comm]
  · constructor
    · intro hx
      cases hx
    · rintro ⟨hij, hj, -⟩
      exact (h ⟨hij, hj⟩).elim

theorem suffix?_eq_some_iff : suffix? b i = some x ↔ i ≤ b.length ∧ x = b.drop i := by
  unfold suffix?
  split_ifs with h
  · simp [h, eq_comm]
  · simp [h]

/-- Ranges of a suffix are ranges of the string. -/
theorem sub?_drop (hoff : off ≤ b.length) (i j : ℕ) :
    sub? (b.drop off) i j = sub? b (off + i) (off + j) := by
  have hiff : (i ≤ j ∧ j ≤ (b.drop off).length) ↔ (off + i ≤ off + j ∧ off + j ≤ b.length) := by
    rw [List.length_drop]
    omega
  rw [sub?, sub?, slice, slice, List.drop_drop, Nat.add_sub_add_left]
  simp only [hiff]

theorem suffix?_drop (hoff : off ≤ b.length) (i : ℕ) :
    suffix? (b.drop off) i = suffix? b (off + i) := by
  have hiff : i ≤ (b.drop off).length ↔ off + i ≤ b.length := by
    rw [List.length_drop]
    omega
  rw [suffix?, suffix?, List.drop_drop]
  simp only [hiff]

/-- At offset `i` the string `b` continues with the field `x`, then with `rest`. -/
structure Cursor (b : List α) (i : ℕ) (x rest : List α) : Prop where
  inside : i ≤ b.length
  reads : b.drop i = x ++ rest

theorem Cursor.start (x rest : List α) : Cursor (x ++ rest) 0 x rest :=
  ⟨Nat.zero_le _, rfl⟩

theorem Cursor.length_eq (h : Cursor b i x rest) : b.length = i + x.length + rest.length := by
  have hl := congrArg List.length h.reads
  rw [List.length_drop, List.length_append] at hl
  have := h.inside
  omega

theorem Cursor.slice_eq (h : Cursor b i x rest) (hj : j = i + x.length) : slice b i j = x := by
  subst hj
  rw [slice, h.reads, Nat.add_sub_cancel_left, List.take_left]

theorem Cursor.sub?_eq (h : Cursor b i x rest) (hj : j = i + x.length) : sub? b i j = some x := by
  have hl := h.length_eq
  exact sub?_eq_some_iff.mpr ⟨by omega, by omega, (h.slice_eq hj).symm⟩

/-- Past the field `x`, the rest of the string is still there to be read. -/
theorem Cursor.next {y : List α} (h : Cursor b i x (y ++ rest)) (hj : j = i + x.length) :
    Cursor b j y rest := by
  subst hj
  refine ⟨?_, ?_⟩
  · have := h.length_eq
    omega
  · rw [← List.drop_drop, h.reads, List.drop_left]

theorem Cursor.suffix?_eq (h : Cursor b i x rest) (hj : j = i + x.length) :
    suffix? b j = some rest := by
  subst hj
  have hl := h.length_eq
  refine suffix?_eq_some_iff.mpr ⟨by omega, ?_⟩
  rw [← List.drop_drop, h.reads, List.drop_left]

/-- A range of the front of a string is a range of the string. -/
theorem slice_take (b : List α) {n : ℕ} (h : j ≤ n) : slice (b.take n) i j = slice b i j := by
  rw [slice, slice, List.drop_take, List.take_take]
  congr 1
  omega

/-- Adjacent ranges join. -/
theorem slice_slice (b : List α) {l : ℕ} (h : i + l ≤ j) :
    slice (slice b i j) k l = slice b (i + k) (i + l) := by
  rw [slice, slice, slice, List.drop_take, List.drop_drop, List.take_take]
  congr 1
  omega

theorem slice_append_slice (b : List α) (hij : i ≤ j) (hjk : j ≤ k) :
    slice b i j ++ slice b j k = slice b i k := by
  have hdrop : b.drop j = (b.drop i).drop (j - i) := by
    rw [List.drop_drop]
    congr 1
    omega
  have hwidth : k - i = (j - i) + (k - j) := by omega
  rw [slice, slice, slice, hdrop, hwidth, List.take_add]

end Slices

/-! ### Records of equal width -/

section Records

variable {α : Type*}

/-- The whole `width`-element records at the front of `b`; a shorter rest is dropped. -/
def records (width : ℕ) (b : List α) : List (List α) :=
  (List.range (b.length / width)).map fun i ↦ slice b (i * width) ((i + 1) * width)

@[simp] theorem records_nil (width : ℕ) : records width ([] : List α) = [] := by
  simp [records]

theorem length_records (width : ℕ) (b : List α) :
    (records width b).length = b.length / width := by
  simp [records]

variable {b r : List α}

theorem isInfix_slice (b : List α) (i j : ℕ) : slice b i j <:+: b :=
  (List.take_prefix _ _).isInfix.trans (List.drop_suffix _ _).isInfix

theorem isInfix_of_mem_records (h : r ∈ records width b) : r <:+: b := by
  obtain ⟨i, -, rfl⟩ := List.mem_map.mp h
  exact isInfix_slice b _ _

theorem length_of_mem_records (h : r ∈ records width b) : r.length = width := by
  obtain ⟨i, hi, rfl⟩ := List.mem_map.mp h
  rw [List.mem_range] at hi
  have hend : (i + 1) * width ≤ b.length :=
    (Nat.mul_le_mul_right width hi).trans (Nat.div_mul_le_self _ _)
  rw [length_slice b _ _ hend, Nat.succ_mul]
  omega

/-- A list next to the records of a string with one for each of its elements, by position. -/
theorem zip_records {β : Type*} (hwidth : 0 < width) {xs : List β}
    (h : b.length = xs.length * width) (default : β) :
    xs.zip (records width b) = (List.range xs.length).map fun i ↦
      (xs.getD i default, slice b (i * width) ((i + 1) * width)) := by
  have hcount : b.length / width = xs.length := by
    rw [h]
    exact Nat.mul_div_cancel _ hwidth
  refine List.ext_getElem ?_ fun i hi _ ↦ ?_
  · simp [length_records, hcount]
  · have hx : i < xs.length := by
      rw [List.length_zip] at hi
      omega
    simp [records, List.getElem?_eq_getElem hx]

/-- The first record of a string that starts with one. -/
theorem records_append (hwidth : 0 < width) (hr : r.length = width) (rest : List α) :
    records width (r ++ rest) = r :: records width rest := by
  unfold records
  have hcount : (r ++ rest).length / width = rest.length / width + 1 := by
    rw [List.length_append, hr, Nat.add_div_left _ hwidth]
  rw [hcount, List.range_succ_eq_map, List.map_cons, List.map_map]
  congr 1
  · simp [slice, ← hr]
  · refine List.map_congr_left fun i _ ↦ ?_
    simp only [Function.comp_apply, Nat.succ_eq_add_one, slice]
    have hstart : (i + 1) * width = r.length + i * width := by
      rw [hr]
      ring
    have hspan : (i + 1 + 1) * width - (i + 1) * width = (i + 1) * width - i * width := by
      rw [Nat.succ_mul (i + 1), Nat.succ_mul i]
      omega
    rw [hspan, hstart, ← List.drop_drop, List.drop_left]

/-- A string of encoded records is cut exactly at the records. -/
theorem records_flatMap_of_mem {β : Type*} (hwidth : 0 < width) (encode : β → List α) {xs : List β}
    (hencode : ∀ x ∈ xs, (encode x).length = width) :
    records width (xs.flatMap encode) = xs.map encode := by
  induction xs with
  | nil => simp
  | cons x xs ih =>
    have hrest := ih fun y hy ↦ hencode y (List.mem_cons_of_mem x hy)
    rw [List.flatMap_cons, records_append hwidth (hencode x List.mem_cons_self), hrest,
      List.map_cons]

theorem records_flatMap {β : Type*} (hwidth : 0 < width) (encode : β → List α)
    (hencode : ∀ x, (encode x).length = width) (xs : List β) :
    records width (xs.flatMap encode) = xs.map encode :=
  records_flatMap_of_mem hwidth encode fun x _ ↦ hencode x

theorem records_flatten (hwidth : 0 < width) {xs : List (List α)} (h : ∀ x ∈ xs, x.length = width) :
    records width xs.flatten = xs := by
  have hrecords := records_flatMap_of_mem hwidth id h
  rwa [List.flatMap_id, List.map_id] at hrecords

theorem length_flatMap_of_width {β : Type*} (encode : β → List α)
    (hencode : ∀ x, (encode x).length = width) (xs : List β) :
    (xs.flatMap encode).length = xs.length * width := by
  simp [List.length_flatMap, hencode]

/-- Cutting a string that is a whole number of records loses nothing. -/
theorem flatten_records (hwidth : 0 < width) :
    ∀ {b : List α}, width ∣ b.length → (records width b).flatten = b := by
  intro b hdvd
  obtain ⟨n, hn⟩ := hdvd
  induction n generalizing b with
  | zero =>
    have hb : b = [] := List.length_eq_zero_iff.mp (by simpa using hn)
    simp [hb]
  | succ n ih =>
    have hle : width ≤ b.length := by
      rw [hn]
      exact Nat.le_mul_of_pos_right _ n.succ_pos
    have hhead : (b.take width).length = width := List.length_take_of_le hle
    have htail : (b.drop width).length = width * n := by
      rw [List.length_drop, hn, Nat.mul_succ]
      omega
    calc (records width b).flatten
        = (records width (b.take width ++ b.drop width)).flatten := by
          rw [List.take_append_drop]
      _ = b.take width ++ (records width (b.drop width)).flatten := by
          rw [records_append hwidth hhead, List.flatten_cons]
      _ = b := by rw [ih htail, List.take_append_drop]

/-- Decoding whole records and encoding the results gives the string back. -/
theorem flatMap_map_records {β : Type*} (hwidth : 0 < width) {encode : β → List α}
    {decode : List α → β} (hdvd : width ∣ b.length)
    (h : ∀ r ∈ records width b, encode (decode r) = r) :
    ((records width b).map decode).flatMap encode = b := by
  have hrecords : (records width b).flatMap (fun r ↦ encode (decode r)) =
      (records width b).flatMap id := List.flatMap_congr h
  rw [List.flatMap_map, hrecords, List.flatMap_id]
  exact flatten_records hwidth hdvd

/-- A decoder that succeeds on a whole list has one result per element, each from an element. -/
theorem spec_of_mapM {β γ : Type*} {f : β → Option γ} {xs : List β} {ys : List γ}
    (h : xs.mapM f = some ys) :
    ys.length = xs.length ∧ ∀ y ∈ ys, ∃ x ∈ xs, f x = some y := by
  induction xs generalizing ys with
  | nil =>
    rw [List.mapM_nil] at h
    cases h
    exact ⟨rfl, by simp⟩
  | cons x xs ih =>
    rw [List.mapM_cons] at h
    obtain ⟨y, hy, hrest⟩ := Option.bind_eq_some_iff.mp h
    obtain ⟨ys', hys', heq⟩ := Option.bind_eq_some_iff.mp hrest
    cases heq
    obtain ⟨hlen, hmem⟩ := ih hys'
    refine ⟨by rw [List.length_cons, List.length_cons, hlen], fun z hz ↦ ?_⟩
    rcases List.mem_cons.mp hz with rfl | hz
    · exact ⟨x, List.mem_cons_self, hy⟩
    · obtain ⟨x', hx', hfx'⟩ := hmem z hz
      exact ⟨x', List.mem_cons_of_mem x hx', hfx'⟩

/-- When the results are known functions of the elements, so is the list of them. -/
theorem map_of_mapM {β γ : Type*} {f : β → Option γ} {g : β → γ} {p : β → Prop} {xs : List β}
    {ys : List γ} (hf : ∀ x ∈ xs, ∀ y, f x = some y → p x ∧ y = g x) (h : xs.mapM f = some ys) :
    (∀ x ∈ xs, p x) ∧ ys = xs.map g := by
  induction xs generalizing ys with
  | nil =>
    rw [List.mapM_nil] at h
    cases h
    exact ⟨fun x hx ↦ (by cases hx), rfl⟩
  | cons x xs ih =>
    rw [List.mapM_cons] at h
    obtain ⟨y, hy, hrest⟩ := Option.bind_eq_some_iff.mp h
    obtain ⟨ys', hys', heq⟩ := Option.bind_eq_some_iff.mp hrest
    cases heq
    obtain ⟨hp, rfl⟩ := ih (fun z hz ↦ hf z (List.mem_cons_of_mem x hz)) hys'
    obtain ⟨hx, rfl⟩ := hf x List.mem_cons_self y hy
    exact ⟨List.forall_mem_cons.mpr ⟨hx, hp⟩, rfl⟩

/-- A loop that fails nowhere. -/
theorem mapM_eq_pure {m : Type → Type} [Monad m] [LawfulMonad m] {β γ : Type} {f : β → m γ}
    {g : β → γ} {xs : List β} (h : ∀ x ∈ xs, f x = pure (g x)) : xs.mapM f = pure (xs.map g) := by
  induction xs with
  | nil => rfl
  | cons x xs ih =>
    rw [List.mapM_cons, h x List.mem_cons_self, ih fun y hy ↦ h y (List.mem_cons_of_mem x hy)]
    simp

end Records

end Jamswap.Library
