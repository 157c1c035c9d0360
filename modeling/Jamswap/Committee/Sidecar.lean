import Jamswap.Committee.Decryption
import Jamswap.Service.Payload

/-!
# The committee sidecar

The process the builder calls to seal an order for the committee (`cmdEncrypt`) and to assemble the
payload of an encrypted round (`cmdRound`). Its committee is fixed; `assembleRound` works for any.
`Recovers` says that what was encrypted for a committee comes back from refine's verified
decryption; the laws of the curve give that (`recovers_of_lawful`), and with it refine reads a round
assembled for the committee back as the orders that were sealed (`encRound_recovers_orders`).
-/

namespace Jamswap.Committee

open Library Engine Service

def committeeSize : ℕ := 2

def committeeTag : UInt8 := 0x11

section Commands

variable (P : Primitives) (S : ScalarOps P.curve)

def fixedCommittee : List (Member P) :=
  (List.range committeeSize).map fun i ↦ keygen P [UInt8.ofNat i, committeeTag, 7]

def fixedJoint : P.curve.Point := jointPk P ((fixedCommittee P).map Member.pk)

/-- `[k][pks]`. -/
def fixedBlob : Bytes :=
  UInt8.ofNat committeeSize :: packCommittee P ((fixedCommittee P).map Member.pk)

/-- C1 ‖ body. -/
def cmdEncrypt (order seed : Bytes) : Bytes :=
  let ct := encrypt P order (fixedJoint P) seed
  ct.1 ++ ct.2

/-- One proven share of a ciphertext from each member, under the member's index. -/
def partialsOf (members : List (Member P × ℕ)) (c1 : Bytes) : Option Bytes :=
  (members.mapM fun m ↦ partialDecrypt P S c1 m.1 [UInt8.ofNat m.2]).map List.flatten

/-- The ENC_ROUND payload; a share that cannot be made stops the process. -/
def assembleRound (members : List (Member P)) (blob : Bytes) (market base quote : UInt32)
    (ciphertexts : List (Bytes × Bytes)) (publicSection : Bytes) : Option Bytes := do
  let partials ← ciphertexts.mapM fun ct ↦ partialsOf P S members.zipIdx ct.1
  return encRoundPayload market base quote (UInt8.ofNat members.length :: blob.drop 1) ciphertexts
    partials publicSection

/-- `ct.split_at(POINT_LEN)`, which stops the process on a short ciphertext. -/
def splitCiphertext (ct : Bytes) : Option (Bytes × Bytes) :=
  if ct.length < pointLen then none else some (ct.take pointLen, ct.drop pointLen)

def emptySection : Bytes := [0, 0, 0, 0]

/-- Empty ciphertexts are dropped from the list, and an empty section stands for one with no orders,
no prunes and no book. -/
def cmdRound (market base quote : UInt32) (plaintext : Bytes) (cts : List Bytes) :
    Option Bytes := do
  let ciphertexts ← (cts.filter fun ct ↦ ct ≠ []).mapM splitCiphertext
  assembleRound P S (fixedCommittee P) (fixedBlob P) market base quote ciphertexts
    (if plaintext = [] then emptySection else plaintext)

/-- The committee's decryption returns what the sidecar encrypted. -/
def Decrypts : Prop :=
  ∀ order seed, ∃ partials,
    partialsOf P S (fixedCommittee P).zipIdx (encrypt P order (fixedJoint P) seed).1 =
        some partials ∧
      verifyAndDecrypt P (encrypt P order (fixedJoint P) seed).1
        (encrypt P order (fixedJoint P) seed).2 (committeeKeys (fixedBlob P)) partials = some order

/-- A committee's joint key. -/
def jointOf (members : List (Member P)) : P.curve.Point := jointPk P (members.map Member.pk)

/-- A committee's `[k][pks]`. -/
def blobOf (members : List (Member P)) : Bytes :=
  UInt8.ofNat members.length :: packCommittee P (members.map Member.pk)

/-- A committee's decryption returns what was encrypted for it. -/
def Recovers (members : List (Member P)) : Prop :=
  ∀ order seed, ∃ partials,
    partialsOf P S members.zipIdx (encrypt P order (jointOf P members) seed).1 = some partials ∧
      verifyAndDecrypt P (encrypt P order (jointOf P members) seed).1
        (encrypt P order (jointOf P members) seed).2 (committeeKeys (blobOf P members)) partials =
          some order

end Commands

section Keys

variable (P : Primitives)

theorem length_packCommittee (keys : List P.curve.Point) :
    (packCommittee P keys).length = keys.length * pointLen :=
  length_flatMap_of_width _ (fun _ ↦ FixedBytes.length_val _) keys

theorem length_fixedCommittee : (fixedCommittee P).length = committeeSize := by
  rw [fixedCommittee, List.length_map, List.length_range]

/-- The keys refine reads off the blob are the members'. -/
theorem committeeKeys_blobOf (members : List (Member P)) :
    committeeKeys (blobOf P members) = members.map fun m ↦ P.curve.encodePoint m.pk := by
  have hkeys : records pointLen (packCommittee P (members.map Member.pk)) =
      (members.map Member.pk).map fun k ↦ (P.curve.encodePoint k).val :=
    records_flatMap (by decide) _ (fun k ↦ FixedBytes.length_val _) _
  rw [committeeKeys, blobOf, List.drop_one, List.tail_cons, hkeys, List.map_map, List.map_map]
  exact List.map_congr_left fun m _ ↦ FixedBytes.ofBytes_val _

/-- The sidecar's committee is one of these. -/
theorem decrypts_iff (S : ScalarOps P.curve) : Decrypts P S ↔ Recovers P S (fixedCommittee P) :=
  Iff.rfl

end Keys

section Lawful

variable {P : Primitives} {S : ScalarOps P.curve}

/-- Every honest member's share can be made, and verifies. -/
theorem shares_honest (h : Lawful P S) (c1 : P.curve.Point) (members : List (Member P × ℕ))
    (hkeys : ∀ m ∈ members, m.1.pk = P.curve.smul P.curve.generator m.1.sk) :
    ∃ parts, (members.mapM fun m ↦ partialDecrypt P S (P.curve.encodePoint c1).val m.1
        [UInt8.ofNat m.2]) = some parts ∧ parts.length = members.length ∧
      (∀ p ∈ parts, p.length = partialLen) ∧
      List.Forall₂ (fun member sk ↦ verifyPartial P (P.curve.encodePoint c1).val member.1.val
          member.2 = some (P.curve.smul c1 sk))
        ((members.map fun m ↦ P.curve.encodePoint m.1.pk).zip parts)
        (members.map fun m ↦ m.1.sk) := by
  induction members with
  | nil => exact ⟨[], rfl, rfl, fun p hp ↦ (by cases hp), List.Forall₂.nil⟩
  | cons m members ih =>
    obtain ⟨parts, hparts, hcount, hlen, hverified⟩ :=
      ih fun m' hm' ↦ hkeys m' (List.mem_cons_of_mem m hm')
    obtain ⟨part, hpart, hpartLen, hverify⟩ :=
      verifyPartial_honest h c1 m.1.sk [UInt8.ofNat m.2]
    have hkey := hkeys m List.mem_cons_self
    rw [← hkey] at hpart hverify
    refine ⟨part :: parts, ?_, congrArg (· + 1) hcount, ?_, List.Forall₂.cons hverify hverified⟩
    · rw [List.mapM_cons, hparts]
      simp only [hpart, Option.bind_eq_bind, Option.bind_some]
      rfl
    · intro p hp
      rcases List.mem_cons.mp hp with rfl | hp
      · exact hpartLen
      · exact hlen p hp

/-- Under the laws of the curve a committee's decryption returns what was encrypted. -/
theorem recovers_of_lawful (h : Lawful P S) {members : List (Member P)} (hne : members ≠ [])
    (hsecret : ∀ m ∈ members, m.pk = P.curve.smul P.curve.generator m.sk) :
    Recovers P S members := by
  intro order seed
  set r := scalarFrom P (ascii "vdec-r") seed with hr
  have hkeys : ∀ m ∈ members.zipIdx, m.1.pk = P.curve.smul P.curve.generator m.1.sk :=
    fun m hm ↦ hsecret _ (List.fst_mem_of_mem_zipIdx hm)
  obtain ⟨parts, hparts, hcount, hlen, hverified⟩ :=
    shares_honest h (P.curve.smul P.curve.generator r) members.zipIdx hkeys
  have hsum := sumPartials_honest h r P.curve.identity hverified
  have hpks : (members.zipIdx.map fun m ↦ P.curve.encodePoint m.1.pk) =
      committeeKeys (blobOf P members) := by
    rw [committeeKeys_blobOf]
    conv_rhs => rw [← List.zipIdx_map_fst 0 members, List.map_map]
    rfl
  have hjoint : (members.zipIdx.map fun m ↦ m.1.sk).map (P.curve.smul P.curve.generator) =
      members.map Member.pk := by
    conv_rhs => rw [← List.zipIdx_map_fst 0 members, List.map_map]
    rw [List.map_map]
    exact List.map_congr_left fun m hm ↦ (hkeys m hm).symm
  rw [hpks, h.smul_identity, hjoint] at hsum
  have hsize : (committeeKeys (blobOf P members)).length = parts.length := by
    rw [hcount, ← hpks, List.length_map]
  have hflatten : parts.flatten.length = parts.length * partialLen := by
    rw [List.length_flatten, List.map_congr_left hlen, List.map_const', List.sum_replicate,
      smul_eq_mul]
  have hpos : parts.length ≠ 0 := by
    rw [hcount, List.length_zipIdx]
    exact (List.length_pos_iff.mpr hne).ne'
  refine ⟨parts.flatten, congrArg (Option.map List.flatten) hparts, ?_⟩
  simp only [verifyAndDecrypt, encrypt]
  rw [if_neg (by rw [hsize, hflatten]; exact not_or.mpr ⟨hpos, not_not.mpr rfl⟩),
    records_flatten (by decide) hlen, hsum]
  simp only [Option.bind_eq_bind, Option.bind_some, List.length_zipWith, length_kdf, Nat.min_self]
  exact congrArg some (zipWith_xor_cancel order _ (length_kdf P _ _).ge)

theorem secret_of_keygen {seeds : List Bytes} :
    ∀ m ∈ seeds.map (keygen P), m.pk = P.curve.smul P.curve.generator m.sk := by
  intro m hm
  obtain ⟨seed, -, rfl⟩ := List.mem_map.mp hm
  rfl

theorem decrypts_of_lawful (h : Lawful P S) : Decrypts P S := by
  refine (decrypts_iff P S).mpr (recovers_of_lawful h ?_ fun m hm ↦ ?_)
  · exact List.ne_nil_of_length_pos (by rw [length_fixedCommittee]; decide)
  · obtain ⟨i, -, rfl⟩ := List.mem_map.mp hm
    rfl

end Lawful

/-! ### The round of orders the sidecar sealed -/

section Rounds

variable {P : Primitives} {S : ScalarOps P.curve}

theorem length_cmdEncrypt (order seed : Bytes) :
    (cmdEncrypt P order seed).length = pointLen + order.length := by
  obtain ⟨hpoint, hbody⟩ := length_encrypt P order (fixedJoint P) seed
  rw [cmdEncrypt, List.length_append, hpoint, hbody]

theorem splitCiphertext_cmdEncrypt (order seed : Bytes) :
    splitCiphertext (cmdEncrypt P order seed) = some (encrypt P order (fixedJoint P) seed) := by
  have hpoint := (length_encrypt P order (fixedJoint P) seed).1
  rw [splitCiphertext, if_neg (by rw [length_cmdEncrypt]; omega), cmdEncrypt, ← hpoint,
    List.take_left, List.drop_left]

/-- An order with the seed it was sealed under. -/
abbrev Sealing := Engine.Order × Bytes

def Sealing.ciphertext (P : Primitives) (e : Sealing) : Bytes :=
  cmdEncrypt P (encodeOrder e.1) e.2

/-- What refine opens it to. -/
def Sealing.opened (P : Primitives) (e : Sealing) : Opened :=
  ⟨e.1, (commitment P (e.ciphertext P)).val ++ u32Bytes e.1.account⟩

/-- The order sealed for a committee: `(C1, body)`. -/
def Sealing.sealFor (P : Primitives) (members : List (Member P)) (e : Sealing) : Bytes × Bytes :=
  encrypt P (encodeOrder e.1) (jointOf P members) e.2

/-- What refine opens it to: the order, and the set entry H(C1 ‖ body) ‖ account. -/
def Sealing.openedFor (P : Primitives) (members : List (Member P)) (e : Sealing) : Opened :=
  ⟨e.1, (commitment P ((e.sealFor P members).1 ++ (e.sealFor P members).2)).val ++
    u32Bytes e.1.account⟩

section Committee

variable {members : List (Member P)}

/-- Refine opens a sealed order the committee proved its shares of. -/
theorem admitCiphertext_sealed (h : Recovers P S members) (e : Sealing) :
    ∃ partials, partialsOf P S members.zipIdx (e.sealFor P members).1 = some partials ∧
      partials.length = members.length * partialLen ∧
      admitCiphertext P (committeeKeys (blobOf P members)) (e.sealFor P members, partials) =
        some (e.openedFor P members) := by
  obtain ⟨partials, hpartials, hdecrypt⟩ := h (encodeOrder e.1) e.2
  have hlen := (verifyAndDecrypt_verified P hdecrypt).2.1
  rw [committeeKeys_blobOf, List.length_map] at hlen
  refine ⟨partials, hpartials, hlen, ?_⟩
  have hdecoded : decodeOrders (encodeOrder e.1) = [e.1] := by
    have hround := decodeOrders_encodeOrders [e.1]
    rwa [encodeOrders, List.flatMap_singleton] at hround
  simp only [Sealing.sealFor, admitCiphertext, hdecrypt, hdecoded, Option.bind_eq_bind,
    Option.bind_some, List.head?_cons]
  rfl

/-- The shares of every ciphertext of a round, and what refine opens them to. -/
theorem admitCiphertexts_sealed (h : Recovers P S members) (seals : List Sealing) :
    ∃ partials, ((seals.map (Sealing.sealFor P members)).mapM fun ct ↦
        partialsOf P S members.zipIdx ct.1) = some partials ∧
      partials.length = seals.length ∧ (∀ p ∈ partials, p.length = members.length * partialLen) ∧
      ((seals.map (Sealing.sealFor P members)).zip partials).mapM
        (admitCiphertext P (committeeKeys (blobOf P members))) =
          some (seals.map (Sealing.openedFor P members)) := by
  induction seals with
  | nil => exact ⟨[], rfl, rfl, fun p hp ↦ (by cases hp), rfl⟩
  | cons e seals ih =>
    obtain ⟨rest, hrest, hcount, hlen, hopened⟩ := ih
    obtain ⟨partials, hpartials, hsize, hadmit⟩ := admitCiphertext_sealed h e
    refine ⟨partials :: rest, ?_, congrArg (· + 1) hcount, ?_, ?_⟩
    · rw [List.map_cons, List.mapM_cons, hpartials, hrest]
      rfl
    · intro p hp
      rcases List.mem_cons.mp hp with rfl | hp
      · exact hsize
      · exact hlen p hp
    · rw [List.map_cons, List.zip_cons_cons, List.mapM_cons, hadmit, hopened]
      rfl

/-- Refine reads a round assembled for the committee back as the orders that were sealed. -/
theorem roundInput_sealed (h : Recovers P S members) (hne : members ≠ [])
    (hmax : members.length < 256) {seals : List Sealing} (hseals : seals.length < 2 ^ 16)
    (market base quote : UInt32) (sec : Bytes) {partials : List Bytes}
    (hpartials : ((seals.map (Sealing.sealFor P members)).mapM fun ct ↦
      partialsOf P S members.zipIdx ct.1) = some partials) :
    roundInput P (encRoundPayload market base quote (blobOf P members)
        (seals.map (Sealing.sealFor P members)) partials sec) =
      (parsePublicSection P sec 0 market).map fun ps ↦
        ⟨.encRound (blobOf P members) (seals.map (Sealing.openedFor P members)), market, base,
          quote, ps⟩ := by
  obtain ⟨shares, hshares, hcount, hlen, hopened⟩ := admitCiphertexts_sealed h seals
  obtain rfl := Option.some.inj (hshares.symm.trans hpartials)
  have hsizes : ∀ ct ∈ seals.map (Sealing.sealFor P members),
      ct.1.length = pointLen ∧ ct.2.length < 256 := by
    intro ct hct
    obtain ⟨e, -, rfl⟩ := List.mem_map.mp hct
    obtain ⟨hpoint, hbody⟩ := length_encrypt P (encodeOrder e.1) (jointOf P members) e.2
    exact ⟨hpoint, by rw [Sealing.sealFor, hbody, length_encodeOrder]; decide⟩
  have hpks : (packCommittee P (members.map Member.pk)).length = members.length * pointLen := by
    rw [length_packCommittee, List.length_map]
  rw [blobOf] at hopened ⊢
  rw [roundInput_encRoundPayload sec (List.length_pos_iff.mpr hne) hmax hpks
    (by rwa [List.length_map]) (fun ct hct ↦ (hsizes ct hct).1) (fun ct hct ↦ (hsizes ct hct).2)
    (by rw [hcount, List.length_map]) hlen, hopened, Option.map_eq_bind]
  rfl

end Committee

variable {market base quote : UInt32} {seals : List Sealing} {sec payload : Bytes}

theorem mapM_splitCiphertext (seals : List Sealing) :
    ((seals.map (Sealing.ciphertext P)).filter fun ct ↦ ct ≠ []).mapM splitCiphertext =
      some (seals.map fun e ↦ encrypt P (encodeOrder e.1) (fixedJoint P) e.2) := by
  have hall : ∀ ct ∈ seals.map (Sealing.ciphertext P), decide (ct ≠ []) = true := by
    intro ct hct
    obtain ⟨e, -, rfl⟩ := List.mem_map.mp hct
    refine decide_eq_true fun hnil ↦ ?_
    have hlen := congrArg List.length hnil
    rw [Sealing.ciphertext, length_cmdEncrypt, pointLen] at hlen
    exact absurd hlen (by simp)
  rw [List.filter_eq_self.mpr hall]
  induction seals with
  | nil => rfl
  | cons e seals ih =>
    have hrest := ih fun ct hct ↦ hall ct (List.mem_cons_of_mem _ hct)
    rw [List.map_cons, List.mapM_cons, Sealing.ciphertext, splitCiphertext_cmdEncrypt, hrest]
    rfl

/-- Whatever the sidecar makes is an encrypted round. -/
theorem tagOf_cmdRound {cts : List Bytes}
    (hround : cmdRound P S market base quote sec cts = some payload) :
    tagOf payload = some .encRound := by
  obtain ⟨ciphertexts, -, hround⟩ := Option.bind_eq_some_iff.mp hround
  obtain ⟨partials, -, hround⟩ := Option.bind_eq_some_iff.mp hround
  rw [← Option.some.inj hround, encRoundPayload]
  simp only [List.append_assoc]
  exact tagOf_matchHeader _ _ _ _ _

/-- The payload the sidecar makes of orders it sealed. -/
theorem cmdRound_sealed (hsec : sec ≠ [])
    (hround : cmdRound P S market base quote sec (seals.map (Sealing.ciphertext P)) =
      some payload) :
    ∃ partials, ((seals.map (Sealing.sealFor P (fixedCommittee P))).mapM fun ct ↦
        partialsOf P S (fixedCommittee P).zipIdx ct.1) = some partials ∧
      payload = encRoundPayload market base quote (blobOf P (fixedCommittee P))
        (seals.map (Sealing.sealFor P (fixedCommittee P))) partials sec := by
  rw [cmdRound, mapM_splitCiphertext, if_neg hsec] at hround
  obtain ⟨partials, hpartials, hpayload⟩ := Option.bind_eq_some_iff.mp
    (show assembleRound P S (fixedCommittee P) (fixedBlob P) market base quote
      (seals.map (Sealing.sealFor P (fixedCommittee P))) sec = some payload from hround)
  exact ⟨partials, hpartials, (Option.some.inj hpayload).symm⟩

/-- Each sealed order takes its ciphertext and its shares of the payload. -/
theorem length_cmdRound (h : Decrypts P S) (hsec : sec ≠ [])
    (hround : cmdRound P S market base quote sec (seals.map (Sealing.ciphertext P)) =
      some payload) :
    seals.length * (pointLen + 1 + orderLen + committeeSize * partialLen) ≤ payload.length := by
  obtain ⟨partials, hpartials, rfl⟩ := cmdRound_sealed hsec hround
  obtain ⟨shares, hshares, hcount, hlen, -⟩ :=
    admitCiphertexts_sealed ((decrypts_iff P S).mp h) seals
  obtain rfl := Option.some.inj (hshares.symm.trans hpartials)
  have hcts : ((seals.map (Sealing.sealFor P (fixedCommittee P))).flatMap
      encodeCiphertext).length = seals.length * (pointLen + 1 + orderLen) := by
    rw [List.flatMap_map]
    refine length_flatMap_of_width _ (fun e ↦ ?_) seals
    obtain ⟨hpoint, hbody⟩ := length_encrypt P (encodeOrder e.1) (fixedJoint P) e.2
    rw [encodeCiphertext, List.length_append, List.length_append]
    exact congrArg₂ (· + 1 + ·) hpoint (hbody.trans (length_encodeOrder _))
  have hflatten : shares.flatten.length = seals.length * (committeeSize * partialLen) := by
    rw [List.length_flatten, List.map_congr_left hlen, List.map_const', List.sum_replicate,
      hcount, length_fixedCommittee, smul_eq_mul]
  rw [encRoundPayload]
  simp only [List.length_append, hcts, hflatten]
  rw [Nat.mul_add]
  omega

/-- Refine reads the round back as the orders that were sealed. -/
theorem roundInput_cmdRound {signed : List SignedOrder} {pruned : List (UInt32 × UInt32)}
    {rawBook : Bytes} (h : Decrypts P S) (hseals : seals.length < 2 ^ 16)
    (hsigned : signed.length < 2 ^ 16) (hpruned : pruned.length < 2 ^ 16)
    (hround : cmdRound P S market base quote (publicSectionBytes signed pruned rawBook)
      (seals.map (Sealing.ciphertext P)) = some payload) :
    roundInput P payload = (signed.mapM (admitSigned P market)).map fun admitted ↦
      ⟨.encRound (fixedBlob P) (seals.map (Sealing.opened P)), market, base, quote,
        builtSection P pruned rawBook admitted⟩ := by
  obtain ⟨partials, hpartials, rfl⟩ := cmdRound_sealed (publicSectionBytes_ne_nil _ _ _) hround
  have hsection := Cursor.start (publicSectionBytes signed pruned rawBook) []
  rw [List.append_nil] at hsection
  rw [roundInput_sealed ((decrypts_iff P S).mp h)
    (List.ne_nil_of_length_pos (by rw [length_fixedCommittee]; decide))
    (by rw [length_fixedCommittee]; decide) hseals _ _ _ _ hpartials,
    parsePublicSection_eq hsigned hpruned hsection, Option.map_map]
  rfl

end Rounds

/-- Encrypted rounds decrypt to what was sealed. For a committee of up to 255 members with any
seeds, any orders, fewer than 2^16, each encrypted under the joint key with any ephemeral seed, and
any public section refine accepts, refine accepts the payload that `assembleRound` makes of them. It
recovers those orders in their order, with the entries H(C1 ‖ body) ‖ account, and binds the
committee by the hash of its blob. -/
theorem encRound_recovers_orders {P : Primitives} {S : ScalarOps P.curve} (h : Lawful P S)
    {seeds : List Bytes} (hne : seeds ≠ []) (hmax : seeds.length ≤ 255) {seals : List Sealing}
    (hseals : seals.length < 2 ^ 16) (market base quote : UInt32) {sec : Bytes} {ps : PublicSection}
    (hsec : parsePublicSection P sec 0 market = some ps) :
    let members := seeds.map (keygen P)
    let blob := blobOf P members
    ∃ payload, assembleRound P S members blob market base quote
        (seals.map (Sealing.sealFor P members)) sec = some payload ∧
      roundInput P payload = some ⟨.encRound blob (seals.map (Sealing.openedFor P members)), market,
        base, quote, ps⟩ ∧
      refine P payload = encRoundOutput P market base quote ps (seals.map Prod.fst)
        ((seals.map (Sealing.openedFor P members)).flatMap Opened.entry) (committeeHash P blob)
        (roundId P payload) := by
  have hmembers : seeds.map (keygen P) ≠ [] := fun hnil ↦ hne (List.map_eq_nil_iff.mp hnil)
  have hrecovers := recovers_of_lawful h hmembers secret_of_keygen
  obtain ⟨partials, hpartials, -⟩ := admitCiphertexts_sealed hrecovers seals
  have hinput := roundInput_sealed hrecovers hmembers (by rw [List.length_map]; omega) hseals market
    base quote sec hpartials
  rw [hsec, Option.map_some] at hinput
  have horders : (seals.map (Sealing.openedFor P (seeds.map (keygen P)))).map Opened.order =
      seals.map Prod.fst := by
    rw [List.map_map]
    rfl
  refine ⟨_, by rw [assembleRound, hpartials]; rfl, hinput, ?_⟩
  rw [refine_of_roundInput hinput, ← horders]
  rfl

/-- Three members, a buy and a sell, and no public orders. -/
theorem encRound_recovers_orders_seven :
    ∃ payload, assembleRound sevenPrimitives sevenScalars
        ([[1], [2], [3]].map (keygen sevenPrimitives))
        (blobOf sevenPrimitives ([[1], [2], [3]].map (keygen sevenPrimitives))) 1 10 20
        ([(⟨1, 1, .buy, 100, 5⟩, [7]), (⟨2, 2, .sell, 90, 5⟩, [8])].map
          (Sealing.sealFor sevenPrimitives ([[1], [2], [3]].map (keygen sevenPrimitives))))
        emptySection = some payload ∧
      (roundInput sevenPrimitives payload).map RoundInput.sealedOrders =
        some [⟨1, 1, .buy, 100, 5⟩, ⟨2, 2, .sell, 90, 5⟩] := by
  have hsec : parsePublicSection sevenPrimitives emptySection 0 1 =
      some ⟨[], [], commitment sevenPrimitives []⟩ := rfl
  obtain ⟨payload, hpayload, hinput, -⟩ := encRound_recovers_orders lawful_seven
    (show [[1], [2], [3]] ≠ ([] : List Bytes) by decide) (by decide)
    (show [((⟨1, 1, .buy, 100, 5⟩, [7]) : Sealing), (⟨2, 2, .sell, 90, 5⟩, [8])].length < 2 ^ 16 by
      decide) 1 10 20 hsec
  refine ⟨payload, hpayload, ?_⟩
  rw [hinput]
  rfl

end Jamswap.Committee
