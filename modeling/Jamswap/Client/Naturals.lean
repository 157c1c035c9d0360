import Jamswap.Library.Words

/-!
# The general natural serialization

A natural below `2 ^ 64` takes one to nine bytes. The first byte starts with as many one bits as
bytes follow, and its other bits are the number's high bits; nine bytes are the marker `0xff` and
the number. `enc_nat` picks the first form with room, `dec_nat` refuses every other one by encoding
again what it read, and the watcher's `decode_nat` reads any form. `width` is the form picked; the
two ways of counting a first byte's leading ones agree on every byte (`leadingOnes_eq_follows`).
-/

namespace Jamswap.Client

open Library

/-- What the codec raises, with the data of the message. -/
inductive CodecError
  | naturalOutOfRange (x : ℕ)
  | truncatedNatural
  | nonCanonicalNatural (read : Bytes)
  /-- `int.to_bytes` on a number that needs more bytes -/
  | tooBig (x width : ℕ)
  | wrongLength (what : String) (got : ℕ)
  | importIndexOutOfRange (index : ℕ)
  | noItems
  | truncated (offset wanted : ℕ)
  | trailing (left : ℕ)
  deriving DecidableEq, Repr

/-! ### The codec -/

def encNat (x : ℕ) : Except CodecError Bytes :=
  if ¬ x < 2 ^ 64 then .error (.naturalOutOfRange x)
  else if x = 0 then .ok [0]
  else
    match (List.range 8).find? fun l ↦ x < 2 ^ (7 * (l + 1)) with
    | some l =>
      let lead := 256 - 2 ^ (8 - l) + (x >>> (8 * l))
      .ok (UInt8.ofNat lead :: leBytes l (x &&& (2 ^ (8 * l) - 1)))
    | none => .ok (255 :: leBytes 8 x)

/-- How many bytes follow a first byte, as `dec_nat` counts them. -/
def follows (b : ℕ) : ℕ :=
  if b = 255 then 8 else ((List.range 8).find? fun n ↦ b &&& (128 >>> n) = 0).getD 8

/-- The number and the index after it. -/
def decNat (buf : Bytes) (i : ℕ) : Except CodecError (ℕ × ℕ) :=
  match buf[i]? with
  | none => .error .truncatedNatural
  | some b =>
    let l := follows b.toNat
    if buf.length < i + 1 + l then .error .truncatedNatural
    else
      let rest := leValue (slice buf (i + 1) (i + 1 + l))
      let x := if l = 8 then rest else rest + ((b.toNat &&& (2 ^ (7 - l) - 1)) <<< (8 * l))
      match encNat x with
      | .error e => .error e
      | .ok encoded =>
        if encoded ≠ slice buf i (i + 1 + l) then
          .error (.nonCanonicalNatural (slice buf i (i + 1 + l)))
        else .ok (x, i + 1 + l)

/-- What the watcher's decoder raises. -/
inductive WatchError
  | indexOutOfRange
  | truncatedNatural
  deriving DecidableEq, Repr

/-- `int.bit_length`. -/
def bitLength (n : ℕ) : ℕ := if n = 0 then 0 else n.log2 + 1

/-- The watcher's decoder, which reads a number in any form. -/
def decodeNat (buf : Bytes) (i : ℕ) : Except WatchError (ℕ × ℕ) :=
  match buf[i]? with
  | none => .error .indexOutOfRange
  | some b =>
    let n := 8 - bitLength (b.toNat ^^^ 255)
    if n = 8 then .ok (leValue (slice buf (i + 1) (i + 9)), i + 9)
    else if buf.length < i + 1 + n then .error .truncatedNatural
    else
      let hi := b.toNat &&& (2 ^ (7 - n) - 1)
      .ok ((hi <<< (8 * n)) + leValue (slice buf (i + 1) (i + 1 + n)), i + 1 + n)

/-! ### The first byte -/

theorem follows_le (b : ℕ) (hb : b < 256) : follows b ≤ 8 := by
  have hall : ∀ b < 256, follows b ≤ 8 := by decide +kernel
  exact hall b hb

variable {l x i : ℕ} {buf : Bytes}

/-- The length and the high bits are read off the first byte that was made from them. -/
theorem follows_lead {h : ℕ} (hl : l < 8) (hh : h < 2 ^ (7 - l)) :
    256 - 2 ^ (8 - l) + h < 255 ∧ follows (256 - 2 ^ (8 - l) + h) = l ∧
      (256 - 2 ^ (8 - l) + h) &&& (2 ^ (7 - l) - 1) = h := by
  have hall : ∀ l < 8, ∀ h < 2 ^ (7 - l), 256 - 2 ^ (8 - l) + h < 255 ∧
      follows (256 - 2 ^ (8 - l) + h) = l ∧
      (256 - 2 ^ (8 - l) + h) &&& (2 ^ (7 - l) - 1) = h := by decide +kernel
  exact hall l hl h hh

theorem leadingOnes_eq_follows {b : ℕ} (hb : b < 256) : 8 - bitLength (b ^^^ 255) = follows b := by
  have hall : ∀ b < 256, 8 - bitLength (b ^^^ 255) = follows b := by decide +kernel
  exact hall b hb

/-! ### The form picked -/

/-- How many bytes follow the first in the encoding of `x`. -/
def width (x : ℕ) : ℕ := ((List.range 8).find? fun l ↦ x < 2 ^ (7 * (l + 1))).getD 8

/-- `x` written with `l` bytes after the first. -/
def form (l x : ℕ) : Bytes :=
  if l = 8 then 255 :: leBytes 8 x
  else UInt8.ofNat (256 - 2 ^ (8 - l) + x / 2 ^ (8 * l)) :: leBytes l (x % 2 ^ (8 * l))

theorem length_form (l x : ℕ) : (form l x).length = 1 + l := by
  rw [form]
  split_ifs with hl
  · rw [List.length_cons, length_leBytes, hl]
  · rw [List.length_cons, length_leBytes, Nat.add_comm]

theorem encNat_eq (hx : x < 2 ^ 64) : encNat x = .ok (form (width x) x) := by
  rw [encNat, if_neg (not_not.mpr hx)]
  split_ifs with hzero
  · rw [hzero]
    decide +kernel
  · rw [width]
    cases hfind : (List.range 8).find? fun l ↦ x < 2 ^ (7 * (l + 1)) with
    | none => rfl
    | some l =>
      have hl : l < 8 := List.mem_range.mp (List.mem_of_find?_eq_some hfind)
      simp only [Option.getD_some, form, if_neg hl.ne, Nat.and_two_pow_sub_one_eq_mod,
        Nat.shiftRight_eq_div_pow]

theorem width_le (x : ℕ) : width x ≤ 8 := by
  rw [width]
  cases hfind : (List.range 8).find? fun l ↦ x < 2 ^ (7 * (l + 1)) with
  | none => exact le_rfl
  | some l => exact (List.mem_range.mp (List.mem_of_find?_eq_some hfind)).le

theorem lt_of_width (h : width x < 8) : x < 2 ^ (7 * (width x + 1)) := by
  rw [width] at h ⊢
  cases hfind : (List.range 8).find? fun l ↦ x < 2 ^ (7 * (l + 1)) with
  | none =>
    rw [hfind] at h
    exact absurd h (by simp)
  | some l => simpa using List.find?_some hfind

/-- The forms before the one picked have no room. -/
theorem width_le_of_lt (hl : l < 8) (hx : x < 2 ^ (7 * (l + 1))) : width x ≤ l := by
  have hfits : decide (x < 2 ^ (7 * (l + 1))) = true := decide_eq_true hx
  rw [width]
  cases hfind : (List.range 8).find? fun l ↦ x < 2 ^ (7 * (l + 1)) with
  | none => exact absurd hfits (List.find?_eq_none.mp hfind l (List.mem_range.mpr hl))
  | some m =>
    rw [Option.getD_some]
    by_contra hlt
    have hmin := (List.find?_range_eq_some.mp hfind).2.2 l (not_le.mp hlt)
    simp only [Bool.not_eq_true', decide_eq_false_iff_not] at hmin
    exact hmin hx

/-! ### Reading what was written -/

/-- The value of a first byte and the bytes after it, in any form. -/
def formValue (b : UInt8) (tail : Bytes) : ℕ :=
  if tail.length = 8 then leValue tail
  else leValue tail + ((b.toNat &&& (2 ^ (7 - tail.length) - 1)) <<< (8 * tail.length))

section Cursors

variable {buf tail after : Bytes} {i x : ℕ} {b : UInt8}

theorem getElem?_of_cursor (h : Cursor buf i (b :: tail) after) : buf[i]? = some b := by
  have hfirst : (buf.drop i)[0]? = some b := by rw [h.reads]; rfl
  rwa [List.getElem?_drop, Nat.add_zero] at hfirst

theorem cursor_tail (h : Cursor buf i (b :: tail) after) : Cursor buf (i + 1) tail after :=
  Cursor.next (x := [b]) ⟨h.inside, h.reads⟩ rfl

theorem decNat_of_cursor (h : Cursor buf i (b :: tail) after)
    (hlen : follows b.toNat = tail.length) :
    decNat buf i = (encNat (formValue b tail)).bind fun encoded ↦
      if encoded ≠ b :: tail then .error (.nonCanonicalNatural (b :: tail))
      else .ok (formValue b tail, i + 1 + tail.length) := by
  have htail := cursor_tail h
  have hsize := htail.length_eq
  have hvalue : slice buf (i + 1) (i + 1 + tail.length) = tail := htail.slice_eq rfl
  have hwhole : slice buf i (i + 1 + tail.length) = b :: tail :=
    h.slice_eq (by rw [List.length_cons]; omega)
  rw [decNat, getElem?_of_cursor h]
  simp only [hlen]
  rw [if_neg (by omega), hvalue, hwhole, ← formValue]
  cases encNat (formValue b tail) with
  | error e => rfl
  | ok encoded => rfl

/-- Everything `dec_nat` reads lies inside the buffer. -/
theorem cursor_of_decNat {r : ℕ × ℕ} (h : decNat buf i = .ok r) :
    ∃ b tail after, Cursor buf i (b :: tail) after ∧ follows b.toNat = tail.length := by
  rw [decNat] at h
  cases hb : buf[i]? with
  | none =>
    rw [hb] at h
    cases h
  | some b =>
    rw [hb] at h
    obtain ⟨hi, hget⟩ := List.getElem?_eq_some_iff.mp hb
    have hlong : i + 1 + follows b.toNat ≤ buf.length := by
      by_contra hshort
      simp only [if_pos (not_le.mp hshort)] at h
      cases h
    refine ⟨b, slice buf (i + 1) (i + 1 + follows b.toNat), buf.drop (i + 1 + follows b.toNat),
      ⟨hi.le, ?_⟩, ?_⟩
    · rw [List.drop_eq_getElem_cons hi, hget, List.cons_append, slice, Nat.add_sub_cancel_left,
        ← List.drop_drop (i := follows b.toNat), List.take_append_drop]
    · rw [length_slice _ _ _ hlong, Nat.add_sub_cancel_left]

theorem decodeNat_of_cursor (h : Cursor buf i (b :: tail) after)
    (hlen : follows b.toNat = tail.length) :
    decodeNat buf i = .ok (formValue b tail, i + 1 + tail.length) := by
  have htail := cursor_tail h
  have hsize := htail.length_eq
  have hvalue : slice buf (i + 1) (i + 1 + tail.length) = tail := htail.slice_eq rfl
  rw [decodeNat, getElem?_of_cursor h]
  simp only [leadingOnes_eq_follows b.toNat_lt, hlen, formValue]
  split_ifs with height hshort
  · rw [height] at hvalue ⊢
    rw [hvalue]
  · omega
  · rw [hvalue, Nat.add_comm]

/-- What a form reads fits into it. -/
theorem formValue_lt_of_short (b : UInt8) (hshort : tail.length < 8) :
    formValue b tail < 2 ^ (7 * (tail.length + 1)) := by
  have hlow : leValue tail < 2 ^ (8 * tail.length) := by
    rw [pow_mul]
    exact leValue_lt tail
  have hhigh : (b.toNat &&& (2 ^ (7 - tail.length) - 1)) + 1 ≤ 2 ^ (7 - tail.length) := by
    rw [Nat.and_two_pow_sub_one_eq_mod]
    exact Nat.mod_lt _ (Nat.two_pow_pos _)
  rw [formValue, if_neg hshort.ne, Nat.shiftLeft_eq]
  calc leValue tail + (b.toNat &&& (2 ^ (7 - tail.length) - 1)) * 2 ^ (8 * tail.length)
      < ((b.toNat &&& (2 ^ (7 - tail.length) - 1)) + 1) * 2 ^ (8 * tail.length) := by
        rw [Nat.add_mul, Nat.one_mul]
        omega
    _ ≤ 2 ^ (7 - tail.length) * 2 ^ (8 * tail.length) := Nat.mul_le_mul_right _ hhigh
    _ = 2 ^ (7 * (tail.length + 1)) := by
        rw [← pow_add]
        congr 1
        omega

theorem formValue_lt (hlen : tail.length ≤ 8) : formValue b tail < 2 ^ 64 := by
  rcases hlen.lt_or_eq with hshort | height
  · refine (formValue_lt_of_short b hshort).trans_le (Nat.pow_le_pow_right (by decide) ?_)
    omega
  · rw [formValue, if_pos height]
    have hlt := leValue_lt tail
    rw [height] at hlt
    exact hlt.trans_eq (by norm_num)

theorem width_formValue (hlen : tail.length ≤ 8) : width (formValue b tail) ≤ tail.length := by
  rcases hlen.lt_or_eq with hshort | height
  · exact width_le_of_lt hshort (formValue_lt_of_short b hshort)
  · rw [height]
    exact width_le _

end Cursors

/-- The high bits of a number that a form has room for. -/
theorem high_lt (hl : l < 8) (hx : x < 2 ^ (7 * (l + 1))) : x / 2 ^ (8 * l) < 2 ^ (7 - l) := by
  rw [Nat.div_lt_iff_lt_mul (Nat.two_pow_pos _), ← pow_add]
  refine hx.trans_eq ?_
  congr 1
  omega

/-- The first byte and the rest of an encoding read back as the number. -/
theorem formValue_form (hx : x < 2 ^ 64) :
    ∃ b tail, form (width x) x = b :: tail ∧ follows b.toNat = tail.length ∧
      formValue b tail = x := by
  rcases (width_le x).lt_or_eq with hshort | height
  · have hroom := lt_of_width hshort
    set l := width x
    obtain ⟨hbyte, hfollows, hhigh⟩ := follows_lead hshort (high_lt hshort hroom)
    have hb : (UInt8.ofNat (256 - 2 ^ (8 - l) + x / 2 ^ (8 * l))).toNat =
        256 - 2 ^ (8 - l) + x / 2 ^ (8 * l) := by
      rw [UInt8.toNat_ofNat', Nat.mod_eq_of_lt (by omega)]
    refine ⟨_, _, if_neg hshort.ne, ?_, ?_⟩
    · rw [hb, hfollows, length_leBytes]
    · rw [formValue, length_leBytes, if_neg hshort.ne, hb, hhigh, leValue_leBytes,
        Nat.shiftLeft_eq, show 256 ^ l = 2 ^ (8 * l) from (pow_mul 2 8 l).symm, Nat.mod_mod,
        Nat.mod_add_div']
  · refine ⟨_, _, if_pos height, by rw [length_leBytes]; decide +kernel, ?_⟩
    rw [formValue, length_leBytes, if_pos rfl, leValue_leBytes, Nat.mod_eq_of_lt (by omega)]

/-- `dec_nat` reads an encoding wherever it stands. -/
theorem decNat_form (hx : x < 2 ^ 64) {after : Bytes} (h : Cursor buf i (form (width x) x) after) :
    decNat buf i = .ok (x, i + (form (width x) x).length) := by
  obtain ⟨b, tail, hform, hlen, hvalue⟩ := formValue_form hx
  rw [hform] at h
  rw [decNat_of_cursor h hlen, hvalue, encNat_eq hx, hform, List.length_cons]
  simp only [Except.bind, ne_eq, not_true_eq_false, if_false]
  congr 2
  omega

/-- `dec_nat` accepts nothing but encodings. -/
theorem decNat_sound {j : ℕ} (h : decNat buf i = .ok (x, j)) :
    x < 2 ^ 64 ∧ ∃ after, Cursor buf i (form (width x) x) after ∧
      j = i + (form (width x) x).length := by
  obtain ⟨b, tail, after, hcursor, hlen⟩ := cursor_of_decNat h
  have hle := follows_le b.toNat b.toNat_lt
  have hlt : formValue b tail < 2 ^ 64 := formValue_lt (by omega)
  rw [decNat_of_cursor hcursor hlen, encNat_eq hlt] at h
  simp only [Except.bind] at h
  split_ifs at h with hsame
  obtain ⟨rfl, rfl⟩ := Prod.mk.inj (Except.ok.inj h)
  rw [not_not] at hsame
  refine ⟨hlt, after, hsame ▸ hcursor, ?_⟩
  rw [hsame, List.length_cons]
  omega

/-- No form in which the watcher reads a number is shorter than its encoding. -/
theorem width_of_decodeNat {j : ℕ} (h : decodeNat buf i = .ok (x, j)) : i + 1 + width x ≤ j := by
  rw [decodeNat] at h
  cases hb : buf[i]? with
  | none =>
    rw [hb] at h
    cases h
  | some b =>
    simp only [hb, leadingOnes_eq_follows b.toNat_lt] at h
    split_ifs at h with height hshort
    · obtain ⟨-, rfl⟩ := Prod.mk.inj (Except.ok.inj h)
      have hle := width_le x
      omega
    · obtain ⟨hx, rfl⟩ := Prod.mk.inj (Except.ok.inj h)
      have hle := follows_le b.toNat b.toNat_lt
      have htail : (slice buf (i + 1) (i + 1 + follows b.toNat)).length = follows b.toNat := by
        rw [length_slice _ _ _ (by omega), Nat.add_sub_cancel_left]
      have hvalue : formValue b (slice buf (i + 1) (i + 1 + follows b.toNat)) = x := by
        rw [formValue, htail, if_neg height, Nat.add_comm]
        exact hx
      have hwidth := width_formValue (b := b) (htail.trans_le hle)
      rw [hvalue, htail] at hwidth
      omega

theorem encNat_ok_iff {e : Bytes} : encNat x = .ok e ↔ x < 2 ^ 64 ∧ e = form (width x) x := by
  by_cases hx : x < 2 ^ 64
  · rw [encNat_eq hx, Except.ok.injEq, and_iff_right hx, eq_comm]
  · rw [encNat, if_pos hx]
    constructor
    · intro h
      cases h
    · intro h
      exact absurd h.1 hx

/-- The two decoders and the encoder of naturals. For every `x` below `2 ^ 64` there is an encoding
`e`, and `dec_nat` reads it before any bytes. What `dec_nat` accepts at an offset starts there with
the encoding of the value it returns, and the watcher returns the same. No encoding is a proper
prefix of another, and no form in which the watcher reads `x` is shorter than its encoding. -/
theorem natural_codec :
    (∀ x < 2 ^ 64, ∃ e, encNat x = .ok e ∧
      (∀ after, decNat (e ++ after) 0 = .ok (x, e.length)) ∧
      (1 ≤ e.length ∧ e.length ≤ 9) ∧
      ∀ buf i j, decodeNat buf i = .ok (x, j) → i + e.length ≤ j) ∧
    (∀ buf i x j, decNat buf i = .ok (x, j) →
      (∃ e, encNat x = .ok e ∧ e <+: buf.drop i ∧ j = i + e.length) ∧
      decodeNat buf i = .ok (x, j)) ∧
    ∀ x y e f, encNat x = .ok e → encNat y = .ok f → e <+: f → x = y ∧ e = f := by
  refine ⟨fun x hx ↦ ⟨_, encNat_eq hx, fun after ↦ ?_, ?_, fun buf i j hread ↦ ?_⟩,
    fun buf i x j hread ↦ ?_, ?_⟩
  · rw [decNat_form hx (Cursor.start _ after), Nat.zero_add]
  · have hle := width_le x
    rw [length_form]
    omega
  · have hwidth := width_of_decodeNat hread
    rw [length_form]
    omega
  · obtain ⟨hx, after, hcursor, hj⟩ := decNat_sound hread
    refine ⟨⟨_, encNat_eq hx, ⟨after, hcursor.reads.symm⟩, hj⟩, ?_⟩
    obtain ⟨b, tail, hform, hlen, hvalue⟩ := formValue_form hx
    rw [hform] at hcursor hj
    rw [decodeNat_of_cursor hcursor hlen, hvalue, hj, List.length_cons]
    congr 2
    omega
  · rintro x y e f hex hey ⟨after, rfl⟩
    obtain ⟨hx, rfl⟩ := encNat_ok_iff.mp hex
    obtain ⟨hy, hlonger⟩ := encNat_ok_iff.mp hey
    -- both are read at the start of the longer one
    have hreadx := decNat_form hx (Cursor.start _ after)
    have hready := decNat_form hy (Cursor.start _ [])
    rw [List.append_nil, ← hlonger, hreadx] at hready
    obtain ⟨rfl, -⟩ := Prod.mk.inj (Except.ok.inj hready)
    exact ⟨rfl, hlonger.symm⟩

theorem natural_codec_boundary :
    decNat ([0xbf, 0xff] ++ [7]) 0 = .ok (2 ^ 14 - 1, 2) ∧
      decodeNat [0xc0, 0x00, 0x40] 0 = .ok (2 ^ 14, 3) := by
  obtain ⟨hround, hsound, -⟩ := natural_codec
  obtain ⟨e, hencoded, hread, -⟩ := hround (2 ^ 14 - 1) (by decide)
  obtain rfl : e = [0xbf, 0xff] := Except.ok.inj (hencoded.symm.trans (by decide +kernel))
  exact ⟨hread [7], (hsound _ 0 _ _ (by decide +kernel)).2⟩

end Jamswap.Client
