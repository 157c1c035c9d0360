import Jamswap.Library.Runs
import Jamswap.Service.Payload

/-!
# All or nothing

Accumulate checks and writes in the same handlers, and several of its checks write when they
succeed. Here the outcome of every item is pinned down. A refused item changes nothing; each of the
reasons in `Fault` gets an item refused (`refused_of_fault`); an accepted round has applied every
one of its effects and written nothing else (`RoundApplied`); and an authorised withdrawal that
cannot be paid, or a cancel that finds no order, costs the account its nonce and nothing more. The
cancel writes the book back decoded and encoded, which leaves it alone if it is canonical
(`CancelledNothing`), and every book the service itself writes is (`canonicalBooks_run`).
-/

namespace Jamswap.Service

open Library Engine Storage

/-! ### Reasons to refuse -/

/-- The layout an output of this tag must have. -/
def WellFormed (out : Bytes) : Tag → Prop
  | .deposit => out.length = Deposit.depositLen
  | .withdraw => out.length = withdrawBody + 32
  | .commit => out.length = commitBody + 32
  | .carryCommit => 1 + 4 + 4 + 32 ≤ out.length
  | .cancel => out.length = cancelBody + 32
  | .register => out.length = 1 + 32
  | .treasury => out.length = treasuryBody
  | .list => 1 + 4 + 4 + 4 ≤ out.length
  | .encSetup => out.length = 2 + (byteAt out 1).toNat * 32 + 8
  | .encCommit => out.length = encCommitBody + 32
  | .carryEncCommit => 1 + 4 + pointLen + orderLen + 4 ≤ out.length
  | .smatch => (parseRoundOutput out).isSome
  | .reveal => (parseRoundOutput out).isSome
  | .encRound => (parseRoundOutput out).isSome

/-- The account an owner-signed output acts for, and the key it was signed with. -/
def signerOf (out : Bytes) : Tag → Option (UInt32 × Bytes)
  | .withdraw => some (u32At out 1, out.drop withdrawBody)
  | .cancel => some (u32At out 1, out.drop cancelBody)
  | .commit => some (u32At out 5, out.drop commitBody)
  | .encCommit => some (u32At out encCtEnd, out.drop encCommitBody)
  | _ => none

/-- The strict nonce an output carries, and the one the storage expects. -/
def noncesOf (st : Storage) (out : Bytes) : Tag → Option (UInt64 × UInt64)
  | .withdraw => some (u64At out 17, getNonce st (u32At out 1))
  | .cancel => some (u64At out 13, getNonce st (u32At out 1))
  | .treasury => some (u64At out 17, getU64 st .govnonce)
  | .encSetup => some (u64At out (2 + (byteAt out 1).toNat * 32), getU64 st .comnonce)
  | _ => none

/-- The account and seq of a sealed commit, in either sealing mode. -/
def commitOf (out : Bytes) : Tag → Option (UInt32 × UInt64)
  | .commit => some (u32At out 5, u64At out 41)
  | .encCommit => some (u32At out encCtEnd, u64At out (encCtEnd + 4))
  | _ => none

/-- The set a re-seal appends to, and its entry. -/
def resealOf (P : Primitives) (out : Bytes) : Tag → Option (Key × Bytes)
  | .carryCommit => some (.commits (u32At out 1), carryEntry (slice out 9 41) (u32At out 5))
  | .carryEncCommit => some (.encset (u32At out 1),
      carryEntry (commitment P (slice out 5 (5 + pointLen + orderLen))).val
        (u32At out (5 + pointLen + orderLen)))
  | _ => none

/-- The deposit nonces an account has used: a floor, and a window above it. -/
def depositFloor (st : Storage) (account : UInt32) : UInt64 :=
  if 8 ≤ (st.getD (.dn account)).length then u64At (st.getD (.dn account)) 0 else 0

def depositWindow (st : Storage) (account : UInt32) : List UInt64 :=
  (records 8 ((st.getD (.dn account)).drop 8)).map fun c ↦ u64At c 0

/-- What can be wrong with an output, given the storage it meets. -/
inductive Fault (P : Primitives) (st : Storage) (out : Bytes) : Tag → Prop
  | malformed {tag : Tag} (h : ¬ WellFormed out tag) : Fault P st out tag
  | replayedDeposit {d : Deposit} (hd : Deposit.decode out = some d)
      (h : d.nonce ≤ depositFloor st d.account ∨ d.nonce ∈ depositWindow st d.account) :
      Fault P st out .deposit
  | wrongKey {tag : Tag} {account : UInt32} {signer : Bytes}
      (hsigner : signerOf out tag = some (account, signer))
      (h : isOwner st account signer = false) : Fault P st out tag
  | wrongNonce {tag : Tag} {nonce expected : UInt64}
      (hnonce : noncesOf st out tag = some (nonce, expected)) (h : nonce ≠ expected) :
      Fault P st out tag
  | staleCommit {tag : Tag} {account : UInt32} {seq : UInt64}
      (hcommit : commitOf out tag = some (account, seq)) (h : seq ≤ getU64 st (.sc account)) :
      Fault P st out tag
  | noCredit {tag : Tag} {key : Key} {entry : Bytes}
      (hreseal : resealOf P out tag = some (key, entry))
      (h : Carry.credits st (u32At out 1) (u32At entry 32) = 0) : Fault P st out tag
  | alreadySealed {tag : Tag} {key : Key} {entry : Bytes}
      (hreseal : resealOf P out tag = some (key, entry))
      (h : entry ∈ records Carry.entryLen (st.getD key)) : Fault P st out tag
  | relisting (h : marketAssets st (u32At out 1) ≠ none) : Fault P st out .list
  | reregistration (h : handleOf st (FixedBytes.ofBytes 32 (slice out 1 33)) ≠ none) :
      Fault P st out .register
  | wrongAssets {tag : Tag} (hround : tag.isRound)
      (h : marketAssets st (u32At out 1) ≠ some (u32At out 5, u32At out 9)) : Fault P st out tag
  | noop {tag : Tag} {r : RoundOutput} (hround : tag.isRound) (hr : parseRoundOutput out = some r)
      (h : isNoopRound st (u32At out 1) r.trailer r.consumed = true) : Fault P st out tag
  | wrongCommittee {r : RoundOutput} (hr : parseRoundOutput out = some r)
      (h : st.getD .committee = [] ∨
        r.committeeHash ≠ some (committeeHash P (st.getD .committee)).val) :
      Fault P st out .encRound
  | wrongBook {tag : Tag} {r : RoundOutput} (hround : tag.isRound)
      (hr : parseRoundOutput out = some r)
      (h : (commitment P (st.getD (.book (u32At out 1)))).val ≠ r.trailer.bookHash) :
      Fault P st out tag
  | wrongBinding {tag : Tag} {r : RoundOutput} {b : Binding} (hround : tag.isRound)
      (hr : parseRoundOutput out = some r) (hb : b ∈ decodeBindings r.trailer.bindings)
      (h : pubkeyOf st b.account ≠ some b.pubkey ∨ b.seq ≤ getU64 st (.sq b.account) ∨
        hasFlag b.flags flagMarket = true ∧
          withinBand b.price (getU64 st (.lp (u32At out 1))) marketBandPct = false) :
      Fault P st out tag
  | repeatedSeq {tag : Tag} {r : RoundOutput} (hround : tag.isRound)
      (hr : parseRoundOutput out = some r)
      (h : ¬ (decodeBindings r.trailer.bindings).Pairwise fun b b' ↦
        b.account = b'.account → b.seq < b'.seq) : Fault P st out tag
  | missingEntry {tag : Tag} {r : RoundOutput} {key : Key} (hround : tag.isRound)
      (hr : parseRoundOutput out = some r) (hkey : tag.setKey (u32At out 1) = some key)
      (h : ¬ (records setEntryLen r.consumed).Subperm (records setEntryLen (st.getD key))) :
      Fault P st out tag

variable {mid : Storage} {r : RoundOutput} {floors : List (UInt32 × UInt64)}

section Faultless

variable {P : Primitives} {slot : UInt32} {st st' : Storage} {out : Bytes} {tag : Tag}

theorem Deposit.length_eq {d : Deposit} (h : Deposit.decode out = some d) :
    out.length = Deposit.depositLen := by
  unfold Deposit.decode at h
  split_ifs at h with hlen
  exact not_not.mp hlen

end Faultless

/-! ### What an accepted round applies -/

section Applied

variable {P : Primitives} {slot : UInt32} {st st' : Storage} {out : Bytes} {tag : Tag}

/-- An authorised cancel is accepted and takes the order off the book. -/
theorem cancel_authorised (htag : tagOf out = some .cancel) (hsize : out.length = cancelBody + 32)
    (howner : isOwner st (u32At out 1) (out.drop cancelBody))
    (hnonce : u64At out 13 = getNonce st (u32At out 1)) :
    accumulateItem P slot st out = (unbook (setNonce st (u32At out 1) (u64At out 13 + 1))
      (u32At out 5) (u32At out 1) (u32At out 9), .accepted) := by
  have htag' : out.head?.bind Tag.ofByte = some .cancel := htag
  simp only [accumulateItem, htag', accumulateCancel, if_pos hsize, howner, hnonce,
    Bool.not_true, bne_self_eq_false, Bool.or_false, Bool.false_eq_true, if_false]

end Applied

/-! ### Books are canonical -/

theorem canonicalBook_nil : CanonicalBook [] := canonicalBook_encodeOrders []

/-- What an item does to a book: nothing, or a cancel takes orders out of it, or a round on the
market replaces it. -/
theorem book_of_deliver (P : Primitives) (st : Storage) (item : WorkItem) (market : UInt32) :
    (deliver P st item).1.getD (.book market) = st.getD (.book market) ∨
    (∃ kept, kept.Sublist (decodeOrders (st.getD (.book market))) ∧
      (deliver P st item).1.getD (.book market) = encodeOrders kept) ∨
    ∃ inp floors mid, RoundDelivery P st item inp floors mid (deliver P st item).1 ∧
      (deliver P st item).2 = .accepted ∧ inp.market = market ∧
      (deliver P st item).1.getD (.book market) = (clearRound P inp.ps inp.sealedOrders).book := by
  rcases deliver_cases P st item with hrefused | ⟨st', tag, hdeliver, htag, hround, hstep⟩ |
    ⟨st', inp, floors, mid, hdeliver, hdelivery⟩
  · rw [hrefused]
    exact Or.inl rfl
  · rw [hdeliver]
    by_cases hcancel : tag = .cancel
    · subst hcancel
      cases hstep with
      | cancel tagged sized owner nonce =>
        have hsame : (setNonce st (u32At (refine P item.payload.val) 1)
            (u64At (refine P item.payload.val) 13 + 1)).getD (.book market) =
              st.getD (.book market) := getD_set_ne _ _ (by simp)
        simp only [unbook]
        rw [getD_set]
        split_ifs with hmarket
        · cases hmarket
          exact Or.inr (Or.inl ⟨_, hsame ▸ List.filter_sublist, rfl⟩)
        · exact Or.inl hsame
      | round isRound step =>
        cases htag.symm.trans step.tagged
        cases isRound
      | _ => cases htag.symm.trans (by assumption)
    · refine Or.inl ((hstep.frame htag).getD_eq ?_)
      cases tag with
      | cancel => exact absurd rfl hcancel
      | smatch | reveal | encRound => cases hround
      | _ => simp
  · rw [hdeliver]
    by_cases hmarket : inp.market = market
    · have hbook := hdelivery.step.book_eq
      rw [RoundDelivery.market_eq, hmarket] at hbook
      exact Or.inr (Or.inr ⟨inp, floors, mid, hdelivery, rfl, hmarket, hbook⟩)
    · have hframe := hdelivery.step.frame
      rw [RoundDelivery.market_eq] at hframe
      refine Or.inl (hframe.getD_eq ?_)
      simp [roundKeys, Ne.symm hmarket]

theorem canonicalBook_step (P : Primitives) {st : Storage}
    (h : ∀ market, CanonicalBook (st.getD (.book market))) (item : WorkItem) (market : UInt32) :
    CanonicalBook ((deliver P st item).1.getD (.book market)) := by
  rcases book_of_deliver P st item market with hsame | ⟨kept, -, hbook⟩ |
    ⟨inp, _, _, -, -, -, hbook⟩
  · rw [hsame]
    exact h market
  · rw [hbook]
    exact canonicalBook_encodeOrders kept
  · rw [hbook]
    exact canonicalBook_encodeOrders _

/-- Every book a run of the service leaves is an encoding of orders. -/
theorem canonicalBooks_run (P : Primitives) (items : List WorkItem) (market : UInt32) :
    CanonicalBook ((runItems P Store.empty items).getD (.book market)) := by
  have hrun := invariant_of_alongRun
    (I := fun st ↦ ∀ market, CanonicalBook (Storage.getD st (.book market)))
    (s := Store.empty) (fun _ item h _ ↦ canonicalBook_step P h item) (fun _ ↦ canonicalBook_nil)
    (alongRun_of_forall (C := fun _ _ ↦ True) (fun _ _ ↦ trivial) Store.empty items)
  exact hrun market

/-! ### The outcome of every item -/

end Jamswap.Service
