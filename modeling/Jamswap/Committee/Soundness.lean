import Jamswap.Committee.Decryption
import Mathlib.Algebra.Field.ZMod
import Mathlib.Algebra.Module.Basic
import Mathlib.SetTheory.Cardinal.Finite
import Mathlib.Tactic.Module

/-!
# What a decryption proof binds

`verifyPartial` recomputes the prover's commitments from its response. Two responses to different
challenges with the same commitments show that the share was made with the member's secret key
(`existsUnique_secret`), and shares made with the members' keys leave one plaintext
(`decryption_binds`). The points are those of a group of prime order that the generator generates,
with its scalars a field (`PrimeGroup`); the hashes are arbitrary.
-/

namespace Jamswap.Committee

open Library Engine

/-- The commitments `verifyPartial` recomputes: T1 = z·G - e·PK and T2 = z·C1 - e·S. -/
def recomputed (P : Primitives) (pk c1 s : P.curve.Point) (e z : P.curve.Scalar) :
    P.curve.Point × P.curve.Point :=
  (P.curve.sub (P.curve.smul P.curve.generator z) (P.curve.smul pk e),
    P.curve.sub (P.curve.smul c1 z) (P.curve.smul s e))

theorem verifyPartial_eq_some {P : Primitives} {c1Bytes pkBytes part : Bytes} {s : P.curve.Point}
    (h : verifyPartial P c1Bytes pkBytes part = some s) :
    ∃ c1 pk e z, dePoint P c1Bytes = some c1 ∧ dePoint P pkBytes = some pk ∧
      dePoint P (slice part 0 pointLen) = some s ∧
      challenge P pk c1 s (recomputed P pk c1 s e z).1 (recomputed P pk c1 s e z).2 = e := by
  unfold verifyPartial at h
  split_ifs at h
  obtain ⟨c1, hc1, h⟩ := Option.bind_eq_some_iff.mp h
  obtain ⟨pk, hpk, h⟩ := Option.bind_eq_some_iff.mp h
  obtain ⟨share, hshare, h⟩ := Option.bind_eq_some_iff.mp h
  obtain ⟨e, -, h⟩ := Option.bind_eq_some_iff.mp h
  obtain ⟨z, -, h⟩ := Option.bind_eq_some_iff.mp h
  dsimp only at h
  split_ifs at h with hchallenge
  obtain rfl := Option.some.inj h
  exact ⟨c1, pk, e, z, hc1, hpk, hshare, hchallenge⟩

/-- Two responses with one commitment: the point is a multiple of the base. -/
theorem eq_smul_of_responses {F M : Type} [Field F] [AddCommGroup M] [Module F M] {g y : M}
    {e z e' z' : F} (hne : e ≠ e') (h : z • g - e • y = z' • g - e' • y) :
    y = ((z - z') / (e - e')) • g := by
  have hsub : e - e' ≠ 0 := sub_ne_zero.mpr hne
  have hscaled : (e - e') • y = (z - z') • g := by
    rw [sub_smul, sub_smul, sub_eq_sub_iff_add_eq_add]
    rw [sub_eq_sub_iff_add_eq_add] at h
    rw [add_comm, ← h, add_comm]
  rw [div_eq_inv_mul, mul_smul, ← hscaled, smul_smul, inv_mul_cancel₀ hsub, one_smul]

section Group

variable {P : Primitives} [Field P.curve.Scalar] [AddCommGroup P.curve.Point]
  [Module P.curve.Scalar P.curve.Point]

variable (P) in
/-- The curve's operations are those of a module, and the generator generates a group of prime
order. -/
structure PrimeGroup : Prop where
  sub_eq : ∀ p q : P.curve.Point, P.curve.sub p q = p - q
  smul_eq : ∀ (p : P.curve.Point) (a : P.curve.Scalar), P.curve.smul p a = a • p
  prime : (Nat.card P.curve.Point).Prime
  generates : ∀ p : P.curve.Point, ∃ a : P.curve.Scalar, p = a • P.curve.generator

theorem PrimeGroup.generator_ne_zero (h : PrimeGroup P) : P.curve.generator ≠ 0 := by
  intro hzero
  have honly : ∀ p : P.curve.Point, p = 0 := fun p ↦ by
    obtain ⟨a, ha⟩ := h.generates p
    rw [ha, hzero, smul_zero]
  have : Subsingleton P.curve.Point := ⟨fun p q ↦ (honly p).trans (honly q).symm⟩
  exact h.prime.one_lt.ne' (Nat.card_of_subsingleton (0 : P.curve.Point))

/-- A key has one secret. -/
theorem PrimeGroup.smul_generator_injective (h : PrimeGroup P) :
    Function.Injective (P.curve.smul P.curve.generator) := by
  intro a b hab
  rw [h.smul_eq, h.smul_eq] at hab
  exact smul_left_injective P.curve.Scalar h.generator_ne_zero hab

/-- The share was made with the secret of the key. -/
theorem existsUnique_secret (h : PrimeGroup P) {pk c1 s : P.curve.Point}
    {e z e' z' : P.curve.Scalar} (hne : e ≠ e')
    (hsame : recomputed P pk c1 s e z = recomputed P pk c1 s e' z') :
    ∃! x, pk = P.curve.smul P.curve.generator x ∧ s = P.curve.smul c1 x := by
  obtain ⟨hkey, hshare⟩ := Prod.mk.inj hsame
  simp only [h.sub_eq, h.smul_eq] at hkey hshare
  refine ⟨(z - z') / (e - e'), ⟨?_, ?_⟩, fun x hx ↦ ?_⟩
  · rw [h.smul_eq]
    exact eq_smul_of_responses hne hkey
  · rw [h.smul_eq]
    exact eq_smul_of_responses hne hshare
  · refine h.smul_generator_injective ?_
    rw [← hx.1, h.smul_eq]
    exact eq_smul_of_responses hne hkey

/-- A share of this form: its point and the member's key are made with one scalar. -/
def Proper (P : Primitives) (c1Bytes : Bytes) (member : Bytes32 × Bytes) : Prop :=
  ∀ c1 pk s, dePoint P c1Bytes = some c1 → dePoint P member.1.val = some pk →
    dePoint P (slice member.2 0 pointLen) = some s →
      ∃ x, pk = P.curve.smul P.curve.generator x ∧ s = P.curve.smul c1 x

/-- Proper shares of one member are the same point. -/
theorem PrimeGroup.share_eq (h : PrimeGroup P) {c1Bytes part part' : Bytes} {key : Bytes32}
    {s s' : P.curve.Point} (hproper : Proper P c1Bytes (key, part))
    (hproper' : Proper P c1Bytes (key, part'))
    (hs : verifyPartial P c1Bytes key.val part = some s)
    (hs' : verifyPartial P c1Bytes key.val part' = some s') : s = s' := by
  obtain ⟨c1, pk, -, -, hc1, hpk, hshare, -⟩ := verifyPartial_eq_some hs
  obtain ⟨c1', pk', -, -, hc1', hpk', hshare', -⟩ := verifyPartial_eq_some hs'
  obtain ⟨x, hx, rfl⟩ := hproper c1 pk s hc1 hpk hshare
  obtain ⟨x', hx', rfl⟩ := hproper' c1 pk s' hc1 hpk hshare'
  rw [h.smul_generator_injective (hx.symm.trans hx')]

/-- Proper shares of a committee add up to one point. -/
theorem PrimeGroup.sumPartials_eq (h : PrimeGroup P) {c1Bytes : Bytes} {keys : List Bytes32}
    {parts parts' : List Bytes} (hparts : parts.length = keys.length)
    (hparts' : parts'.length = keys.length)
    (hproper : ∀ member ∈ keys.zip parts, Proper P c1Bytes member)
    (hproper' : ∀ member ∈ keys.zip parts', Proper P c1Bytes member)
    {acc total total' : P.curve.Point}
    (htotal : sumPartials P c1Bytes (keys.zip parts) acc = some total)
    (htotal' : sumPartials P c1Bytes (keys.zip parts') acc = some total') : total = total' := by
  induction keys generalizing parts parts' acc with
  | nil => exact Option.some.inj (htotal.symm.trans htotal')
  | cons key keys ih =>
    obtain ⟨part, parts, rfl⟩ := List.exists_cons_of_length_eq_add_one hparts
    obtain ⟨part', parts', rfl⟩ := List.exists_cons_of_length_eq_add_one hparts'
    rw [List.zip_cons_cons, List.forall_mem_cons] at hproper hproper'
    rw [List.zip_cons_cons, sumPartials] at htotal htotal'
    cases hs : verifyPartial P c1Bytes key.val part with
    | none =>
      rw [hs] at htotal
      cases htotal
    | some s =>
      cases hs' : verifyPartial P c1Bytes key.val part' with
      | none =>
        rw [hs'] at htotal'
        cases htotal'
      | some s' =>
        rw [hs] at htotal
        rw [hs', ← h.share_eq hproper.1 hproper'.1 hs hs'] at htotal'
        exact ih (Nat.succ.inj hparts) (Nat.succ.inj hparts') hproper.2 hproper'.2 htotal htotal'

/-- Decryption proofs bind the plaintext. Two responses to different challenges with the same
recomputed commitments determine a scalar that made both the member's key and its share; and of two
lists of shares that are made this way, one for each key of the committee, `verifyAndDecrypt`
returns the same plaintext when it accepts both. -/
theorem decryption_binds (h : PrimeGroup P) :
    (∀ (pk c1 s : P.curve.Point) (e z e' z' : P.curve.Scalar), e ≠ e' →
        recomputed P pk c1 s e z = recomputed P pk c1 s e' z' →
          ∃! x, pk = P.curve.smul P.curve.generator x ∧ s = P.curve.smul c1 x) ∧
      ∀ (keys : List Bytes32) (c1Bytes body partials partials' plain plain' : Bytes),
        (∀ member ∈ keys.zip (records partialLen partials), Proper P c1Bytes member) →
        (∀ member ∈ keys.zip (records partialLen partials'), Proper P c1Bytes member) →
        verifyAndDecrypt P c1Bytes body keys partials = some plain →
        verifyAndDecrypt P c1Bytes body keys partials' = some plain' → plain = plain' := by
  refine ⟨fun pk c1 s e z e' z' ↦ existsUnique_secret h, ?_⟩
  intro keys c1Bytes body partials partials' plain plain' hproper hproper' hplain hplain'
  have hlen : ∀ {parts plain : Bytes},
      verifyAndDecrypt P c1Bytes body keys parts = some plain →
        (records partialLen parts).length = keys.length := by
    intro parts plain hdecrypt
    rw [length_records, (verifyAndDecrypt_verified P hdecrypt).2.1,
      Nat.mul_div_cancel _ (by decide)]
  have hlength := hlen hplain
  have hlength' := hlen hplain'
  simp only [verifyAndDecrypt] at hplain hplain'
  split_ifs at hplain hplain'
  obtain ⟨shared, hshared, hplain⟩ := Option.bind_eq_some_iff.mp hplain
  obtain ⟨shared', hshared', hplain'⟩ := Option.bind_eq_some_iff.mp hplain'
  rw [← h.sumPartials_eq hlength hlength' hproper hproper' hshared hshared'] at hplain'
  exact Option.some.inj (hplain.symm.trans hplain')

end Group

/-! ### The integers modulo 7 -/

instance fact_prime_seven : Fact (Nat.Prime 7) := ⟨by decide⟩

instance : Field sevenPrimitives.curve.Scalar := inferInstanceAs (Field (ZMod 7))

instance : AddCommGroup sevenPrimitives.curve.Point := inferInstanceAs (AddCommGroup (ZMod 7))

instance : Module sevenPrimitives.curve.Scalar sevenPrimitives.curve.Point :=
  inferInstanceAs (Module (ZMod 7) (ZMod 7))

theorem primeGroup_seven : PrimeGroup sevenPrimitives where
  sub_eq _ _ := rfl
  smul_eq (p a : ZMod 7) := mul_comm p a
  prime := by
    show (Nat.card (ZMod 7)).Prime
    rw [Nat.card_zmod]
    decide
  generates (p : ZMod 7) := ⟨p, (mul_one p).symm⟩

/-- A share of 6 with the response `z` to the challenge 4. -/
def sevenPartial (z : UInt8) : Bytes :=
  (FixedBytes.ofBytes 32 [6]).val ++ (FixedBytes.ofBytes 32 [4]).val ++
    (FixedBytes.ofBytes 32 [z]).val

theorem proper_sevenPartial (z : UInt8) :
    ∀ member ∈ [FixedBytes.ofBytes 32 [3]].zip (records partialLen (sevenPartial z)),
      Proper sevenPrimitives (FixedBytes.ofBytes 32 [2]).val member := by
  intro member hmember
  have hlen : (sevenPartial z).length = partialLen := by
    simp only [sevenPartial, List.length_append, FixedBytes.length_val]
    rfl
  have hone : records partialLen (sevenPartial z) = [sevenPartial z] := by
    conv_lhs => rw [← List.append_nil (sevenPartial z)]
    rw [records_append (by decide) hlen, records_nil]
  rw [hone, List.zip_cons_cons, List.zip_nil_left, List.mem_singleton] at hmember
  subst hmember
  rintro c1 pk s ⟨⟩ ⟨⟩ ⟨⟩
  exact ⟨(3 : ZMod 7), rfl, rfl⟩

/-- With key 3 and ciphertext point 2, the responses 4 to challenge 1 and 0 to challenge 2 have the
same commitments, and show that the share is 6; and different proofs of that share decrypt to the
same bytes. -/
theorem decryption_binds_seven :
    (recomputed sevenPrimitives (3 : ZMod 7) (2 : ZMod 7) (6 : ZMod 7) (1 : ZMod 7) (4 : ZMod 7) =
        recomputed sevenPrimitives (3 : ZMod 7) (2 : ZMod 7) (6 : ZMod 7) (2 : ZMod 7)
          (0 : ZMod 7) ∧
      ∃! x, (3 : ZMod 7) = sevenPrimitives.curve.smul sevenPrimitives.curve.generator x ∧
        (6 : ZMod 7) = sevenPrimitives.curve.smul (2 : ZMod 7) x) ∧
    sevenPartial 0 ≠ sevenPartial 1 ∧
      ∃ plain, verifyAndDecrypt sevenPrimitives (FixedBytes.ofBytes 32 [2]).val [1, 2]
          [FixedBytes.ofBytes 32 [3]] (sevenPartial 0) = some plain ∧
        verifyAndDecrypt sevenPrimitives (FixedBytes.ofBytes 32 [2]).val [1, 2]
          [FixedBytes.ofBytes 32 [3]] (sevenPartial 1) = some plain := by
  obtain ⟨hsecret, hplaintext⟩ := decryption_binds primeGroup_seven
  refine ⟨?_, by decide, ?_⟩
  · have hsame : recomputed sevenPrimitives (3 : ZMod 7) (2 : ZMod 7) (6 : ZMod 7) (1 : ZMod 7)
        (4 : ZMod 7) = recomputed sevenPrimitives (3 : ZMod 7) (2 : ZMod 7) (6 : ZMod 7)
          (2 : ZMod 7) (0 : ZMod 7) := by
      refine Prod.ext ?_ ?_
      · show (1 * 4 - 3 * 1 : ZMod 7) = 1 * 0 - 3 * 2
        decide
      · show (2 * 4 - 6 * 1 : ZMod 7) = 2 * 0 - 6 * 2
        decide
    have hne : (1 : ZMod 7) ≠ 2 := by decide
    exact ⟨hsame, hsecret _ _ _ _ _ _ _ hne hsame⟩
  · have haccepts : ∀ z ∈ [(0 : UInt8), 1], (verifyAndDecrypt sevenPrimitives
        (FixedBytes.ofBytes 32 [2]).val [1, 2] [FixedBytes.ofBytes 32 [3]]
        (sevenPartial z)).isSome := by decide +kernel
    obtain ⟨plain, hplain⟩ := Option.isSome_iff_exists.mp (haccepts 0 (by decide))
    obtain ⟨plain', hplain'⟩ := Option.isSome_iff_exists.mp (haccepts 1 (by decide))
    refine ⟨plain, hplain, hplain'.trans (congrArg some ?_)⟩
    exact hplaintext _ _ _ _ _ _ _ (proper_sevenPartial 1) (proper_sevenPartial 0) hplain' hplain

end Jamswap.Committee
