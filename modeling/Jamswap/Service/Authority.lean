import Jamswap.Service.Atomicity
import Jamswap.Service.Authorisation
import Jamswap.Service.CommitSets
import Jamswap.Service.Fees
import Jamswap.Service.SignedOps

/-!
# Who can act for an account

Anyone can submit a payload, and refine does not know which key belongs to an account. It verifies
the signature under the key in the payload and passes the key on, and accumulate holds it against
the registered one. Together they accept an operation only if its own message was signed with the
key it needs (`accepted_operation_authorised`), and so nobody but its owner takes from an account:
over any run a balance falls only in a withdrawal its owner signed, or in a round that clears an
order of it (`balance_falls_by_owner`).
-/

namespace Jamswap.Service

open Library Engine Storage

namespace SignedOp

/-- The key the operation has to be signed with. -/
def signer (st : Storage) : SignedOp → Option Bytes32
  | .order account .. => pubkeyOf st account
  | .commit _ account .. => pubkeyOf st account
  | .withdraw handle .. => pubkeyOf st handle
  | .cancel handle .. => pubkeyOf st handle
  | .register pubkey => some pubkey
  | .treasury .. => some govPubkey
  | .committee .. => some govPubkey

/-- The signature is one of the operation's message under the key it needs. -/
def Authorised (P : Primitives) (st : Storage) (sig : FixedBytes 64) (op : SignedOp) : Prop :=
  ∃ key, op.signer st = some key ∧ verifySigned P key op.message sig = true

/-- The storage an operation leaves. Orders come in rounds and not as items of their own, and the
tag tells the two sealing modes of a commit apart. -/
def performed (slot : UInt32) (tag : Tag) (st : Storage) : SignedOp → Storage
  | .order .. => st
  | .commit market account commitId seq =>
    let mid := (admitCommit st account seq).2
    match tag with
    | .encCommit =>
      mid.set (.encset market) (mid.getD (.encset market) ++ commitId.val ++ u32Bytes account)
    | _ => recordCommit slot mid market commitId.val account
  | .withdraw handle asset amount nonce =>
    payOut (setNonce st handle (nonce + 1)) asset handle amount
  | .cancel handle market oid nonce => unbook (setNonce st handle (nonce + 1)) market handle oid
  | .register pubkey => (registerKey st pubkey).1
  | .treasury asset amount dest nonce =>
    sweepTreasury (setU64 st .govnonce (nonce + 1)) asset amount dest
  | .committee pks nonce => (setU64 st .comnonce (nonce + 1)).set .committee
      (UInt8.ofNat pks.val.length :: pks.val.flatMap Subtype.val)

end SignedOp

/-! ### Signatures -/

section Signed

variable {P : Primitives} {slot : UInt32} {st st' : Storage} {data : Bytes} {tag : Tag}
  {op : SignedOp}

/-- A step on what was passed on of a signed payload is the operation in it, and its signer's key is
the one the operation needs. -/
theorem ItemStep.performs (h : ItemStep P slot st (passedOn tag data) st')
    (htag : tagOf (passedOn tag data) = some tag) (hsigned : tag.isSigned)
    (hlen : signedBody tag data ≤ data.length) (hop : SignedOp.ofPayload P tag data = some op) :
    op.signer st = some (signedKey tag data) ∧ st' = op.performed slot tag st := by
  cases h with
  | withdraw tagged sized owner nonce =>
    cases htag.symm.trans tagged
    cases hop
    have hbody : signedBody .withdraw data = 25 := rfl
    simp (disch := omega) only [u32At_passedOn hlen, u64At_passedOn hlen] at owner ⊢
    exact ⟨(isOwner_passedOn hlen rfl).mp owner, rfl⟩
  | cancel tagged sized owner nonce =>
    cases htag.symm.trans tagged
    cases hop
    have hbody : signedBody .cancel data = 21 := rfl
    simp (disch := omega) only [u32At_passedOn hlen, u64At_passedOn hlen] at owner ⊢
    exact ⟨(isOwner_passedOn hlen rfl).mp owner, rfl⟩
  | commit tagged sized owner admitted =>
    cases htag.symm.trans tagged
    cases hop
    have hbody : signedBody .commit data = 49 := rfl
    have hcid : (FixedBytes.ofBytes 32 (slice data 9 41)).val = slice data 9 41 :=
      FixedBytes.val_ofBytes (length_slice _ _ _ (by omega))
    simp (disch := omega) only [u32At_passedOn hlen, u64At_passedOn hlen] at owner admitted ⊢
    rw [slice_passedOn hlen (by omega)]
    exact ⟨(isOwner_passedOn hlen rfl).mp owner, by simp only [SignedOp.performed, admitted, hcid]⟩
  | encCommit tagged sized owner admitted =>
    cases htag.symm.trans tagged
    cases hop
    have hbody : signedBody .encCommit data = encCtEnd + 4 + 8 := rfl
    simp (disch := omega) only [u32At_passedOn hlen, u64At_passedOn hlen] at owner admitted ⊢
    rw [slice_passedOn hlen (by omega)]
    exact ⟨(isOwner_passedOn hlen rfl).mp owner, by simp only [SignedOp.performed, admitted]⟩
  | register tagged sized fresh =>
    cases htag.symm.trans tagged
    cases hop
    have hbody : signedBody .register data = 33 := rfl
    rw [slice_passedOn hlen (by omega)]
    exact ⟨rfl, rfl⟩
  | treasury tagged sized nonce =>
    cases htag.symm.trans tagged
    cases hop
    have hbody : signedBody .treasury data = 25 := rfl
    simp (disch := omega) only [u32At_passedOn hlen, u64At_passedOn hlen]
    exact ⟨rfl, rfl⟩
  | encSetup tagged sized nonce =>
    cases htag.symm.trans tagged
    have hbody : signedBody .encSetup data = 2 + (byteAt data 1).toNat * 32 + 8 := rfl
    obtain ⟨hmax, hop'⟩ := ofPayload_encSetup (P := P) hlen
    cases hop'.symm.trans hop
    have hcount : byteAt (passedOn .encSetup data) 1 = byteAt data 1 := by
      have hbyte := slice_passedOn (i := 1) (j := 2) hlen (by omega)
      rw [← singleton_byteAt (by rw [sized]; omega), ← singleton_byteAt (by omega)] at hbyte
      exact (List.cons.inj hbyte).1
    rw [hcount, u64At_passedOn hlen (by omega), slice_passedOn hlen (by omega),
      UInt8.ofNat_toNat, ← flatMap_committeePks hlen, ← ofNat_length_committeePks hlen]
    exact ⟨rfl, rfl⟩
  | round isRound step =>
    cases htag.symm.trans step.tagged
    cases tag <;> cases isRound <;> cases hsigned
  | _ =>
    cases htag.symm.trans (by assumption)
    cases hsigned

theorem ItemStep.authorised (h : ItemStep P slot st (refine P data) st')
    (htag : tagOf (refine P data) = some tag) (hsigned : tag.isSigned) :
    ∃ op, SignedOp.ofPayload P tag data = some op ∧
      op.Authorised P st (sig64 data (signedBody tag data)) ∧ st' = op.performed slot tag st := by
  obtain ⟨hlen, ⟨op, hop, hverified⟩, hout⟩ :=
    authenticate_eq_some_iff.mp (authenticate_of_signed htag hsigned)
  rw [hout] at h htag
  obtain ⟨hsigner, hperformed⟩ := h.performs htag hsigned (by omega) hop
  exact ⟨op, hop, ⟨_, hsigner, hverified⟩, hperformed⟩

end Signed

/-- The item can lower a balance of the account: it is a withdrawal that the account's owner signed,
or a round that clears an order of it. -/
inductive Spends (P : Primitives) (account : UInt32) (st : Storage) (item : WorkItem) : Prop
  | withdrawal {asset : UInt32} {amount nonce : UInt64}
      (tagged : tagOf item.payload.val = some .withdraw)
      (requested : SignedOp.ofPayload P .withdraw item.payload.val =
        some (.withdraw account asset amount nonce))
      (authorised : (SignedOp.withdraw account asset amount nonce).Authorised P st
        (sig64 item.payload.val withdrawBody))
  | round {inp : RoundInput} {o : Order} (input : roundInput P item.payload.val = some inp)
      (cleared : o ∈ inp.orders) (own : o.account = account)

section Balances

variable {P : Primitives} {st st' : Storage} {item : WorkItem} {asset account : UInt32}

theorem getBal_of_frame {K : Set Key} (h : Frame K st st') (hK : .bal asset account ∉ K) :
    getBal st' asset account = getBal st asset account := h.getU64_eq hK

theorem getBal_setBal_ne {other : UInt32} (h : account ≠ other) (asset' : UInt32) (v : UInt64) :
    getBal (setBal st asset' other v) asset account = getBal st asset account := by
  rw [getBal_setBal, if_neg fun heq ↦ h heq.2]

/-- A credit lowers no balance. -/
theorem le_getBal_credit (st : Storage) (asset' dest : UInt32) (v : UInt64) :
    getBal st asset account ≤
      getBal (setBal st asset' dest (satAdd (getBal st asset' dest) v)) asset account := by
  rw [getBal_setBal]
  split_ifs with h
  · rw [h.1, h.2]
    exact UInt64.le_iff_toNat_le.mpr (le_toNat_satAdd _ _)
  · exact UInt64.le_refl _

/-- Of the items that are not rounds, only its withdrawals lower the balances of an account. -/
theorem ItemStep.le_getBal {slot : UInt32} {out : Bytes} {tag : Tag}
    (h : ItemStep P slot st out st') (htag : tagOf out = some tag) (hround : tag.isRound = false)
    (htreasury : account ≠ feeAccount) (hother : tag = .withdraw → account ≠ u32At out 1) :
    getBal st asset account ≤ getBal st' asset account := by
  have hsame : Key.bal asset account ∉ itemKeys tag out →
      getBal st asset account ≤ getBal st' asset account := fun hkeys ↦ by
    rw [getBal_of_frame (h.frame htag) hkeys]
    exact UInt64.le_refl _
  have hset : ∀ k v, Key.bal asset account ≠ k →
      getBal (setU64 st k v) asset account = getBal st asset account :=
    fun k v hk ↦ getBal_of_frame (frame_set_self st k _) hk
  cases h with
  | @deposit d mid tagged decoded admitted =>
    have hframe := Deposit.frame_admitNonce st d.account d.nonce
    rw [admitted] at hframe
    rw [← getBal_of_frame hframe (by simp), payIn,
      getBal_of_frame (frame_setCust _ _ _) (by simp)]
    exact le_getBal_credit mid _ _ _
  | withdraw tagged =>
    cases htag.symm.trans tagged
    rw [← hset (.nc (u32At out 1)) (u64At out 17 + 1) (by simp), payOut]
    split_ifs
    · rw [getBal_of_frame (frame_setCust _ _ _) (by simp),
        getBal_setBal_ne (hother rfl)]
      exact UInt64.le_refl _
    · exact UInt64.le_refl _
  | treasury tagged =>
    rw [← hset .govnonce (u64At out 17 + 1) (by simp), sweepTreasury]
    split_ifs
    · refine UInt64.le_trans ?_ (le_getBal_credit _ _ _ _)
      rw [getBal_setBal_ne htreasury]
      exact UInt64.le_refl _
    · exact UInt64.le_refl _
  | round isRound step =>
    cases htag.symm.trans step.tagged
    cases isRound.symm.trans hround
  | _ =>
    cases htag.symm.trans (by assumption)
    exact hsame (by simp)

/-- A round leaves the balances of accounts without orders in it alone. -/
theorem RoundDelivery.getBal_eq {mid : Storage} {inp : RoundInput}
    {floors : List (UInt32 × UInt64)} (h : RoundDelivery P st item inp floors mid st')
    (htreasury : account ≠ feeAccount) (hnone : ∀ o ∈ inp.orders, o.account ≠ account) :
    getBal st' asset account = getBal st asset account := by
  have hchange : inp.netChange P account = 0 := by
    rw [RoundInput.netChange, RoundInput.deltas, amount_settleDeltas, if_neg htreasury, add_zero]
    refine netChange_of_notMem _ _ fun e he heq ↦ ?_
    obtain ⟨o, ho, haccount⟩ := mem_accounts_settleEntries he
    exact hnone o ho (haccount.trans heq)
  have hzero : ∀ v : UInt64, applyDelta v 0 = v := fun v ↦ by
    have hv := v.toNat_lt
    rw [← UInt64.toNat_inj, ← Int.natCast_inj, toNat_applyDelta (by omega) (by omega), add_zero]
  have hsettled : getBal (inp.settled P st) asset account = getBal st asset account := by
    refine getBal_foldl (fun st d hd ↦ ?_) st
    by_cases hd' : account = d.1
    · have hnet := RoundInput.netChange_of_mem hd
      rw [← hd', hchange] at hnet
      simp only [settleAccount, ← hd', ← hnet, Prod.fst_zero, Prod.snd_zero, hzero, getBal_setBal]
      split_ifs <;> simp_all
    · rw [settleAccount, getBal_setBal_ne hd', getBal_setBal_ne hd']
  rw [h.balances.getBal_eq subset_rfl, ← hsettled]
  refine getBal_foldl (fun st b hb ↦ ?_) _
  obtain ⟨a, ha, rfl⟩ := List.mem_map.mp hb
  obtain ⟨bookBytes, hpublic⟩ := h.spec.publicSection
  obtain ⟨s, -, hs⟩ := hpublic.admits a ha
  obtain ⟨rfl, -, -⟩ := admitSigned_spec hs
  have hpayer : account ≠ s.order.account := by
    refine (hnone s.order ?_).symm
    exact List.mem_append_left _ (List.mem_append_right _ (List.mem_map_of_mem ha))
  rw [chargeFee]
  split_ifs
  · rw [getBal_setBal_ne htreasury, getBal_setBal_ne hpayer]
  · rfl

/-- An item lowers no balance of an account, or spends from it. -/
theorem le_getBal_or_spends (P : Primitives) (st : Storage) (item : WorkItem) (asset : UInt32)
    (htreasury : account ≠ feeAccount) :
    getBal st asset account ≤ getBal (deliver P st item).1 asset account ∨
      (deliver P st item).2 = .accepted ∧ Spends P account st item := by
  rcases deliver_cases P st item with hrefused | ⟨st', tag, hdeliver, htag, hround, hstep⟩ |
    ⟨st', inp, floors, mid, hdeliver, hdelivery⟩
  · rw [hrefused]
    exact Or.inl (UInt64.le_refl _)
  · rw [hdeliver]
    by_cases hown : tag = .withdraw ∧ account = u32At (refine P item.payload.val) 1
    · obtain ⟨rfl, rfl⟩ := hown
      obtain ⟨hlen, -, hout⟩ := authenticate_eq_some_iff.mp (authenticate_of_signed htag rfl)
      have hbody : signedBody .withdraw item.payload.val = 25 := rfl
      obtain ⟨op, hop, hauthorised, -⟩ := hstep.authorised htag rfl
      cases hop
      rw [hout, u32At_passedOn (by omega) (by omega)]
      exact Or.inr ⟨rfl, .withdrawal (tagOf_refine htag) rfl hauthorised⟩
    · exact Or.inl (hstep.le_getBal htag hround htreasury fun hkind heq ↦ hown ⟨hkind, heq⟩)
  · rw [hdeliver]
    by_cases hown : ∃ o ∈ inp.orders, o.account = account
    · obtain ⟨o, ho, haccount⟩ := hown
      exact Or.inr ⟨rfl, .round hdelivery.input ho haccount⟩
    · refine Or.inl (UInt64.le_of_eq (hdelivery.getBal_eq htreasury fun o ho heq ↦ ?_).symm)
      exact hown ⟨o, ho, heq⟩

end Balances

/-- Whoever submits the items of a run, a balance of an account other than the treasury's is lower
after it only if one of them was accepted and spends from the account. -/
theorem balance_falls_by_owner (P : Primitives) (st : Storage) (items : List WorkItem)
    (asset account : UInt32) (htreasury : account ≠ feeAccount)
    (hfall : getBal (runItems P st items) asset account < getBal st asset account) :
    ∃ before item after, items = before ++ item :: after ∧
      (deliver P (runItems P st before) item).2 = .accepted ∧
      Spends P account (runItems P st before) item := by
  induction items generalizing st with
  | nil => exact absurd hfall (UInt64.lt_irrefl _)
  | cons item items ih =>
    rcases le_getBal_or_spends P st item asset htreasury with hle | hspends
    · obtain ⟨before, item', after, rfl, hlater⟩ := ih _ (UInt64.lt_of_lt_of_le hfall hle)
      exact ⟨item :: before, item', after, rfl, hlater⟩
    · exact ⟨[], item, items, rfl, hspends⟩

/-- The buyer of a trade pays with its own order. -/
theorem balance_falls_by_owner_tradeItem :
    ∃ before item after, [tradeItem] = before ++ item :: after ∧
      (deliver Primitives.toy (runItems Primitives.toy buyerWithoutBase before) item).2 =
        .accepted ∧
      Spends Primitives.toy 1 (runItems Primitives.toy buyerWithoutBase before) item :=
  balance_falls_by_owner Primitives.toy buyerWithoutBase [tradeItem] 2 1 (by decide)
    (by decide +kernel)

end Jamswap.Service
