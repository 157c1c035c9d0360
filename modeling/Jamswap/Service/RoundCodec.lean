import Jamswap.Service.Accumulate

/-!
# What refine writes is what accumulate reads

The two stages of a round meet only in the work output. `parseRoundOutput` is accumulate's reading
of it; `parseRoundOutput_of_fit` says that an output whose counts fit their fields is read back
section by section as refine wrote it, for all three round types. Within the platform's bound on an
output they do, the 16-bit counts of bindings and carry entries included
(`parseRoundOutput_output`).
-/

namespace Jamswap.Service

open Library Engine

/-- The tag of a payload or an output. -/
def tagOf (b : Bytes) : Option Tag := b.head?.bind Tag.ofByte

/-- The sections accumulate reads from a round output of any type. -/
def parseRoundOutput (out : Bytes) : Option RoundOutput :=
  match tagOf out with
  | some .smatch => if 19 ≤ out.length then parseSmatch out else none
  | some .reveal => if 21 ≤ out.length then parseReveal out else none
  | some .encRound => if 23 + 32 ≤ out.length then parseEncRound out else none
  | _ => none

/-- The tag of a round type. -/
def RoundKind.tag : RoundKind → Tag
  | .smatch => .smatch
  | .reveal _ => .reveal
  | .encRound _ _ => .encRound

/-- The committee hash an encrypted round emits. -/
def RoundKind.committeeHash? (P : Primitives) : RoundKind → Option Bytes
  | .encRound committee _ => some (committeeHash P committee).val
  | _ => none

/-- The sections refine puts into a round's output. -/
def RoundInput.sections (P : Primitives) (r : RoundInput) (rid : Bytes32) : RoundOutput :=
  let c := clearRound P r.ps r.sealedOrders
  { settle := c.settle
    consumed := r.consumed
    committeeHash := r.kind.committeeHash? P
    carry := match r.kind with
      | .smatch => []
      | _ => c.carry.flatMap u32Bytes
    trailer := ⟨encodeBindings r.ps.bindings, r.ps.bookHash.val, rid, c.book⟩ }

/-! ### The header -/

variable {out settle consumed book : Bytes} {market base quote : UInt32} {bindings : List Binding}
  {bookHash rid : Bytes32} {carry : List UInt32} {r : RoundOutput}

section Header

variable {tag : Tag} {market base quote : UInt32} {settle rest : Bytes}

theorem tagOf_header : tagOf (roundHeader tag market base quote settle ++ rest) = some tag := by
  rw [tagOf, roundHeader]
  exact Tag.ofByte_byte tag

theorem length_header : (roundHeader tag market base quote settle).length = 17 + settle.length := by
  simp only [roundHeader, List.length_append, List.length_cons, List.length_nil, length_u32Bytes]

/-- The fields of the header, and the settlement section after it. -/
theorem header_cursors (hout : out = roundHeader tag market base quote settle ++ rest) :
    u32At out 1 = market ∧ u32At out 5 = base ∧ u32At out 9 = quote ∧
      u32At out 13 = UInt32.ofNat settle.length ∧ Cursor out 17 settle rest := by
  have hstart : Cursor out 0 [tag.byte] (u32Bytes market ++ (u32Bytes base ++ (u32Bytes quote ++
      (u32Bytes (UInt32.ofNat settle.length) ++ (settle ++ rest))))) := by
    subst hout
    simpa [roundHeader] using Cursor.start [tag.byte] _
  have hmarket := hstart.next (j := 1) rfl
  have hbase := hmarket.next (j := 5) (by simp)
  have hquote := hbase.next (j := 9) (by simp)
  have hlen := hquote.next (j := 13) (by simp)
  have hsettle := hlen.next (j := 17) (by simp)
  exact ⟨hmarket.u32At_eq, hbase.u32At_eq, hquote.u32At_eq, hlen.u32At_eq, hsettle⟩

end Header

theorem toNat_u32_of_lt {n : ℕ} (h : n < 2 ^ 32) : (UInt32.ofNat n).toNat = n := by
  rw [UInt32.toNat_ofNat', Nat.mod_eq_of_lt h]

theorem toNat_u16_of_lt {n : ℕ} (h : n < 2 ^ 16) : (UInt16.ofNat n).toNat = n := by
  rw [UInt16.toNat_ofNat', Nat.mod_eq_of_lt h]

theorem length_pushAuthTrailer (bindings : List Binding) (bookHash rid : Bytes32) (book : Bytes) :
    (pushAuthTrailer bindings bookHash rid book).length =
      2 + bindings.length * bindingLen + 32 + 32 + book.length := by
  simp only [pushAuthTrailer, List.length_append, length_u16Bytes, length_encodeBindings,
    FixedBytes.length_val]

theorem length_carrySection (carry : List UInt32) :
    (carrySection carry).length = 2 + carry.length * 4 := by
  rw [carrySection, List.length_append, length_u16Bytes,
    length_flatMap_of_width u32Bytes length_u32Bytes]

/-! ### The three layouts -/

section Layouts

variable (hsettle : settle.length < 2 ^ 32) (hconsumed : consumed.length < 2 ^ 32)
  (hcarry : carry.length < 2 ^ 16) (hbindings : bindings.length < 2 ^ 16)

include hsettle hbindings

theorem parseSmatch_output
    (hout : out = roundHeader .smatch market base quote settle ++
      pushAuthTrailer bindings bookHash rid book) :
    parseSmatch out = some ⟨settle, [], none, [],
      ⟨encodeBindings bindings, bookHash.val, rid, book⟩⟩ := by
  obtain ⟨-, -, -, hlen, hblob⟩ := header_cursors hout
  have htotal := hblob.length_eq
  rw [length_pushAuthTrailer] at htotal
  have hsettleLen : (u32At out 13).toNat = settle.length := by
    rw [hlen, toNat_u32_of_lt hsettle]
  have htrailer := parseAuthTrailer_push hbindings hout
  rw [length_header] at htrailer
  simp only [parseSmatch, hsettleLen]
  rw [if_neg (by omega), htrailer, hblob.slice_eq rfl]
  rfl

include hconsumed hcarry

/-- The sections of a round with sealed orders; `mid` is what stands before the carry list, the
committee hash or nothing. -/
theorem sealed_sections {tag : Tag} {mid : Bytes} {off : ℕ}
    (hoff : 21 + settle.length + consumed.length + mid.length = off)
    (hout : out = roundHeader tag market base quote settle ++
      u32Bytes (UInt32.ofNat consumed.length) ++ consumed ++ mid ++ carrySection carry ++
      pushAuthTrailer bindings bookHash rid book) :
    (u32At out 13).toNat = settle.length ∧ slice out 17 (17 + settle.length) = settle ∧
      (u32At out (17 + settle.length)).toNat = consumed.length ∧
      slice out (21 + settle.length) (21 + settle.length + consumed.length) = consumed ∧
      slice out (21 + settle.length + consumed.length) off = mid ∧
      (u16At out off).toNat = carry.length ∧
      slice out (off + 2) (off + 2 + carry.length * 4) = carry.flatMap u32Bytes ∧
      parseAuthTrailer out (off + 2 + carry.length * 4) =
        some ⟨encodeBindings bindings, bookHash.val, rid, book⟩ ∧
      off + 2 + carry.length * 4 + 2 ≤ out.length := by
  have htrailer := parseAuthTrailer_push hbindings hout
  have hbefore : (roundHeader tag market base quote settle ++
      u32Bytes (UInt32.ofNat consumed.length) ++ consumed ++ mid ++ carrySection carry).length =
      off + 2 + carry.length * 4 := by
    simp only [List.length_append, length_header, length_u32Bytes, length_carrySection]
    omega
  rw [hbefore] at htrailer
  simp only [carrySection, List.append_assoc] at hout
  obtain ⟨-, -, -, hlen, hsettleAt⟩ := header_cursors hout
  have hconsumedLen := hsettleAt.next (j := 17 + settle.length) rfl
  have hconsumedAt := hconsumedLen.next (j := 21 + settle.length) (by simp; omega)
  have hmid := hconsumedAt.next (j := 21 + settle.length + consumed.length) rfl
  have hncar := hmid.next (j := off) hoff.symm
  have hcarryAt := hncar.next (j := off + 2) (by simp)
  have hcarryLen : (carry.flatMap u32Bytes).length = carry.length * 4 :=
    length_flatMap_of_width u32Bytes length_u32Bytes carry
  have htotal := hcarryAt.length_eq
  rw [length_pushAuthTrailer, hcarryLen] at htotal
  refine ⟨?_, hsettleAt.slice_eq rfl, ?_, hconsumedAt.slice_eq rfl, hmid.slice_eq hoff.symm, ?_,
    hcarryAt.slice_eq (by rw [hcarryLen]), htrailer, by omega⟩
  · rw [hlen, toNat_u32_of_lt hsettle]
  · rw [hconsumedLen.u32At_eq, toNat_u32_of_lt hconsumed]
  · rw [hncar.u16At_eq, toNat_u16_of_lt hcarry]

theorem parseReveal_output
    (hout : out = roundHeader .reveal market base quote settle ++
      u32Bytes (UInt32.ofNat consumed.length) ++ consumed ++ carrySection carry ++
      pushAuthTrailer bindings bookHash rid book) :
    parseReveal out = some ⟨settle, consumed, none, carry.flatMap u32Bytes,
      ⟨encodeBindings bindings, bookHash.val, rid, book⟩⟩ := by
  rw [← List.append_nil (_ ++ consumed)] at hout
  obtain ⟨hsettleLen, hsettleAt, hconsumedLen, hconsumedAt, -, hncar, hcarryAt, htrailer, htotal⟩ :=
    sealed_sections hsettle hconsumed hcarry hbindings rfl hout
  rw [List.length_nil, Nat.add_zero] at hncar hcarryAt htrailer htotal
  simp only [parseReveal, hsettleLen, hconsumedLen, hncar]
  rw [if_neg (by omega), if_neg (by omega), if_neg (by omega), htrailer, hsettleAt, hconsumedAt,
    hcarryAt]
  rfl

theorem parseEncRound_output {committeeH : Bytes32}
    (hout : out = roundHeader .encRound market base quote settle ++
      u32Bytes (UInt32.ofNat consumed.length) ++ consumed ++ committeeH.val ++ carrySection carry ++
      pushAuthTrailer bindings bookHash rid book) :
    parseEncRound out = some ⟨settle, consumed, some committeeH.val, carry.flatMap u32Bytes,
      ⟨encodeBindings bindings, bookHash.val, rid, book⟩⟩ := by
  obtain ⟨hsettleLen, hsettleAt, hconsumedLen, hconsumedAt, hcommittee, hncar, hcarryAt, htrailer,
    htotal⟩ := sealed_sections hsettle hconsumed hcarry hbindings rfl hout
  rw [FixedBytes.length_val] at hcommittee hncar hcarryAt htrailer htotal
  simp only [parseEncRound, hsettleLen, hconsumedLen, hncar]
  rw [if_neg (by omega), if_neg (by omega), if_neg (by omega), htrailer, hsettleAt, hconsumedAt,
    hcommittee, hcarryAt]
  rfl

end Layouts

/-! ### Any round -/

theorem length_of_parseSmatch (h : parseSmatch out = some r) : 19 ≤ out.length := by
  simp only [parseSmatch] at h
  split_ifs at h with hshort
  omega

theorem length_of_parseReveal (h : parseReveal out = some r) : 21 ≤ out.length := by
  simp only [parseReveal] at h
  split_ifs at h with hshort
  omega

theorem length_of_parseEncRound (h : parseEncRound out = some r) : 23 + 32 ≤ out.length := by
  simp only [parseEncRound] at h
  split_ifs at h with hsettle hconsumed
  omega

/-- A round's output starts with its header and its settlement. -/
theorem output_eq_header (P : Primitives) (r : RoundInput) (rid : Bytes32) :
    ∃ rest, r.output P rid =
      roundHeader r.kind.tag r.market r.base r.quote (r.sections P rid).settle ++ rest := by
  obtain ⟨kind, market, base, quote, ps⟩ := r
  cases kind with
  | smatch => exact ⟨_, rfl⟩
  | reveal opened =>
    simp only [RoundInput.output, revealOutput, List.append_assoc]
    exact ⟨_, rfl⟩
  | encRound committee opened =>
    simp only [RoundInput.output, encRoundOutput, List.append_assoc]
    exact ⟨_, rfl⟩

/-- The header of a round's output names its tag, market and assets. -/
theorem output_header (P : Primitives) (r : RoundInput) (rid : Bytes32) :
    tagOf (r.output P rid) = some r.kind.tag ∧ u32At (r.output P rid) 1 = r.market ∧
      u32At (r.output P rid) 5 = r.base ∧ u32At (r.output P rid) 9 = r.quote := by
  obtain ⟨rest, hout⟩ := output_eq_header P r rid
  obtain ⟨hmarket, hbase, hquote, -, -⟩ := header_cursors hout
  refine ⟨?_, hmarket, hbase, hquote⟩
  rw [hout]
  exact tagOf_header

/-- The settlement section of a round output of any type. -/
def settleSection (out : Bytes) : Bytes := slice out 17 (17 + (u32At out 13).toNat)

theorem settleSection_output {P : Primitives} {r : RoundInput} {rid : Bytes32}
    (h : (r.sections P rid).settle.length < 2 ^ 32) :
    settleSection (r.output P rid) = (r.sections P rid).settle := by
  obtain ⟨rest, hout⟩ := output_eq_header P r rid
  obtain ⟨-, -, -, hlen, hsettle⟩ := header_cursors hout
  rw [settleSection, hlen, toNat_u32_of_lt h]
  exact hsettle.slice_eq rfl

/-- The counts of the round's output fit the fields they are written to. -/
structure RoundInput.CountsFit (P : Primitives) (r : RoundInput) : Prop where
  settle : (clearRound P r.ps r.sealedOrders).settle.length < 2 ^ 32
  consumed : r.consumed.length < 2 ^ 32
  carry : (clearRound P r.ps r.sealedOrders).carry.length < 2 ^ 16
  bindings : r.ps.bindings.length < 2 ^ 16

/-- A round output whose counts fit is read back as it was written. -/
theorem parseRoundOutput_of_fit {P : Primitives} {r : RoundInput} (rid : Bytes32)
    (hfit : r.CountsFit P) : parseRoundOutput (r.output P rid) = some (r.sections P rid) := by
  have htag := (output_header P r rid).1
  obtain ⟨kind, market, base, quote, ps⟩ := r
  unfold parseRoundOutput
  rw [htag]
  cases kind with
  | smatch =>
    have hparse : parseSmatch (RoundInput.output P ⟨.smatch, market, base, quote, ps⟩ rid) =
        some (RoundInput.sections P ⟨.smatch, market, base, quote, ps⟩ rid) :=
      parseSmatch_output hfit.settle hfit.bindings rfl
    exact (if_pos (length_of_parseSmatch hparse)).trans hparse
  | reveal opened =>
    have hparse : parseReveal (RoundInput.output P ⟨.reveal opened, market, base, quote, ps⟩ rid) =
        some (RoundInput.sections P ⟨.reveal opened, market, base, quote, ps⟩ rid) :=
      parseReveal_output hfit.settle hfit.consumed hfit.carry hfit.bindings rfl
    exact (if_pos (length_of_parseReveal hparse)).trans hparse
  | encRound committee opened =>
    have hparse : parseEncRound
        (RoundInput.output P ⟨.encRound committee opened, market, base, quote, ps⟩ rid) =
        some (RoundInput.sections P ⟨.encRound committee opened, market, base, quote, ps⟩ rid) :=
      parseEncRound_output hfit.settle hfit.consumed hfit.carry hfit.bindings rfl
    exact (if_pos (length_of_parseEncRound hparse)).trans hparse

/-- Within the platform's bound the counts fit. -/
theorem countsFit_of_size {P : Primitives} {r : RoundInput}
    (hsize : (r.output P rid).length ≤ maxReportElectiveData) : r.CountsFit P := by
  unfold RoundInput.output at hsize
  cases hkind : r.kind with
  | smatch =>
    have hopened : r.sealedOrders = [] := by simp [RoundInput.sealedOrders, hkind, RoundKind.opened]
    simp only [hkind, smatchOutput, List.length_append, length_header, length_pushAuthTrailer,
      bindingLen, maxReportElectiveData] at hsize
    refine ⟨?_, by simp [RoundInput.consumed, hkind, RoundKind.opened], ?_, by omega⟩
    · rw [hopened]
      omega
    · simp [clearRound, hopened]
  | reveal opened =>
    simp only [hkind, revealOutput, List.length_append, length_header, length_u32Bytes,
      length_carrySection, length_pushAuthTrailer, bindingLen, maxReportElectiveData] at hsize
    constructor <;> omega
  | encRound committee opened =>
    simp only [hkind, encRoundOutput, List.length_append, length_header, length_u32Bytes,
      FixedBytes.length_val, length_carrySection, length_pushAuthTrailer, bindingLen,
      maxReportElectiveData] at hsize
    constructor <;> omega

/-- A round output within the platform's bound is read back as it was written. -/
theorem parseRoundOutput_output (P : Primitives) (r : RoundInput) (rid : Bytes32)
    (hsize : (r.output P rid).length ≤ maxReportElectiveData) :
    parseRoundOutput (r.output P rid) = some (r.sections P rid) :=
  parseRoundOutput_of_fit rid (countsFit_of_size hsize)

end Jamswap.Service
