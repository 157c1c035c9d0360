import Jamswap.Service.RoundStep

/-!
# What an accepted item does

`ItemStep P slot st out st'` lists the ways a work output can be accepted: one constructor per
outcome, with the checks it passed in `st` and the storage it leaves. Accumulate either takes one of
these steps or refuses and writes nothing (`itemStep_of_accepted`, `eq_of_refused`), so what holds
over runs is proved from the constructors and never from the handlers again. `ItemStep.frame` names
the keys each step can write.
-/

namespace Jamswap.Service

open Library Engine Storage

/-- An accepted work output: the checks it passed and the storage it leaves. -/
inductive ItemStep (P : Primitives) (slot : UInt32) (st : Storage) (out : Bytes) : Storage → Prop
  | deposit {d : Deposit} {mid : Storage} (tagged : tagOf out = some .deposit)
      (decoded : Deposit.decode out = some d)
      (admitted : Deposit.admitNonce st d.account d.nonce = (true, mid)) :
      ItemStep P slot st out (payIn mid d)
  | withdraw (tagged : tagOf out = some .withdraw)
      (sized : out.length = withdrawBody + 32)
      (owner : isOwner st (u32At out 1) (out.drop withdrawBody))
      (nonce : u64At out 17 = getNonce st (u32At out 1)) :
      ItemStep P slot st out
        (payOut (setNonce st (u32At out 1) (u64At out 17 + 1)) (u32At out 5) (u32At out 1)
          (u64At out 9))
  | commit {mid : Storage} (tagged : tagOf out = some .commit)
      (sized : out.length = commitBody + 32)
      (owner : isOwner st (u32At out 5) (out.drop commitBody))
      (admitted : admitCommit st (u32At out 5) (u64At out 41) = (true, mid)) :
      ItemStep P slot st out
        (recordCommit slot mid (u32At out 1) (slice out 9 41) (u32At out 5))
  | carryCommit {mid : Storage} (tagged : tagOf out = some .carryCommit)
      (sized : 1 + 4 + 4 + 32 ≤ out.length)
      (admitted : Carry.admitEntry st (.commits (u32At out 1)) (u32At out 1)
        (carryEntry (slice out 9 41) (u32At out 5)) = (true, mid)) :
      ItemStep P slot st out
        (cageAdd (gcCommits mid (u32At out 1) slot) (u32At out 1) (slice out 9 41) (u32At out 5)
          slot)
  | cancel (tagged : tagOf out = some .cancel)
      (sized : out.length = cancelBody + 32)
      (owner : isOwner st (u32At out 1) (out.drop cancelBody))
      (nonce : u64At out 13 = getNonce st (u32At out 1)) :
      ItemStep P slot st out
        (unbook (setNonce st (u32At out 1) (u64At out 13 + 1)) (u32At out 5) (u32At out 1)
          (u32At out 9))
  | register (tagged : tagOf out = some .register) (sized : out.length = 1 + 32)
      (fresh : handleOf st (FixedBytes.ofBytes 32 (slice out 1 33)) = none) :
      ItemStep P slot st out (registerKey st (FixedBytes.ofBytes 32 (slice out 1 33))).1
  | treasury (tagged : tagOf out = some .treasury) (sized : out.length = treasuryBody)
      (nonce : u64At out 17 = getU64 st .govnonce) :
      ItemStep P slot st out
        (sweepTreasury (setU64 st .govnonce (u64At out 17 + 1)) (u32At out 1) (u64At out 5)
          (u32At out 13))
  | list (tagged : tagOf out = some .list) (sized : 1 + 4 + 4 + 4 ≤ out.length)
      (unlisted : marketAssets st (u32At out 1) = none) :
      ItemStep P slot st out (listMarket st (u32At out 1) (u32At out 5) (u32At out 9))
  | encSetup (tagged : tagOf out = some .encSetup)
      (sized : out.length = 2 + (byteAt out 1).toNat * 32 + 8)
      (nonce : u64At out (2 + (byteAt out 1).toNat * 32) = getU64 st .comnonce) :
      ItemStep P slot st out
        ((setU64 st .comnonce (u64At out (2 + (byteAt out 1).toNat * 32) + 1)).set .committee
          (UInt8.ofNat (byteAt out 1).toNat :: slice out 2 (2 + (byteAt out 1).toNat * 32)))
  | encCommit {mid : Storage} (tagged : tagOf out = some .encCommit)
      (sized : out.length = encCommitBody + 32)
      (owner : isOwner st (u32At out encCtEnd) (out.drop encCommitBody))
      (admitted : admitCommit st (u32At out encCtEnd) (u64At out (encCtEnd + 4)) = (true, mid)) :
      ItemStep P slot st out
        (mid.set (.encset (u32At out 1)) (mid.getD (.encset (u32At out 1)) ++
          (commitment P (slice out 5 encCtEnd)).val ++ u32Bytes (u32At out encCtEnd)))
  | carryEncCommit {mid : Storage} (tagged : tagOf out = some .carryEncCommit)
      (sized : 1 + 4 + pointLen + orderLen + 4 ≤ out.length)
      (admitted : Carry.admitEntry st (.encset (u32At out 1)) (u32At out 1)
        (carryEntry (commitment P (slice out 5 (5 + pointLen + orderLen))).val
          (u32At out (5 + pointLen + orderLen))) = (true, mid)) :
      ItemStep P slot st out mid
  | round {tag : Tag} {r : RoundOutput} {floors : List (UInt32 × UInt64)} {mid st' : Storage}
      (isRound : tag.isRound) (step : RoundStep P slot st out tag r floors mid st') :
      ItemStep P slot st out st'

variable {account : UInt32} {seq : UInt64} {st : Storage} {out : Bytes} {P : Primitives}

section Inversion

variable {P : Primitives} {slot : UInt32} {st st' : Storage} {out : Bytes}

theorem itemStep_of_deposit (htag : tagOf out = some .deposit)
    (h : accumulateDeposit st out = (st', .accepted)) : ItemStep P slot st out st' := by
  unfold accumulateDeposit at h
  split at h
  · cases h
  · rename_i d hdecoded
    split at h
    · cases h
    · rename_i mid hadmitted
      cases h
      exact .deposit htag hdecoded hadmitted

/-- What the two handlers of an owner's nonce have checked. -/
theorem owner_of_checked {owner : Bool} {nonce next : UInt64}
    (h : ¬ (!owner || nonce != next) = true) : owner = true ∧ nonce = next := by
  simpa using h

theorem itemStep_of_withdraw (htag : tagOf out = some .withdraw)
    (h : accumulateWithdraw st out = (st', .accepted)) : ItemStep P slot st out st' := by
  simp only [accumulateWithdraw] at h
  split_ifs at h with hlen hcheck <;> cases h
  exact .withdraw htag hlen (owner_of_checked hcheck).1 (owner_of_checked hcheck).2

theorem itemStep_of_commit (htag : tagOf out = some .commit)
    (h : accumulateCommit slot st out = (st', .accepted)) : ItemStep P slot st out st' := by
  simp only [accumulateCommit] at h
  split_ifs at h with hlen howner <;> try cases h
  split at h <;> cases h
  rename_i hadmitted
  exact .commit htag hlen (by simpa using howner) hadmitted

theorem itemStep_of_carryCommit (htag : tagOf out = some .carryCommit)
    (h : accumulateCarryCommit slot st out = (st', .accepted)) : ItemStep P slot st out st' := by
  simp only [accumulateCarryCommit] at h
  split_ifs at h with hlen <;> try cases h
  split at h <;> cases h
  rename_i hadmitted
  exact .carryCommit htag hlen hadmitted

theorem itemStep_of_cancel (htag : tagOf out = some .cancel)
    (h : accumulateCancel st out = (st', .accepted)) : ItemStep P slot st out st' := by
  simp only [accumulateCancel] at h
  split_ifs at h with hlen hcheck <;> cases h
  exact .cancel htag hlen (owner_of_checked hcheck).1 (owner_of_checked hcheck).2

theorem itemStep_of_register (htag : tagOf out = some .register)
    (h : accumulateRegister st out = (st', .accepted)) : ItemStep P slot st out st' := by
  simp only [accumulateRegister] at h
  split_ifs at h with hlen hfresh <;> cases h
  exact .register htag hlen (by simpa using hfresh)

theorem itemStep_of_treasury (htag : tagOf out = some .treasury)
    (h : accumulateTreasury st out = (st', .accepted)) : ItemStep P slot st out st' := by
  simp only [accumulateTreasury] at h
  split_ifs at h with hlen hnonce <;> cases h
  exact .treasury htag hlen (not_not.mp hnonce)

theorem itemStep_of_list (htag : tagOf out = some .list)
    (h : accumulateList st out = (st', .accepted)) : ItemStep P slot st out st' := by
  simp only [accumulateList] at h
  split_ifs at h with hlen hunlisted <;> cases h
  exact .list htag hlen (Option.isNone_iff_eq_none.mp hunlisted)

theorem itemStep_of_encSetup (htag : tagOf out = some .encSetup)
    (h : accumulateEncSetup st out = (st', .accepted)) : ItemStep P slot st out st' := by
  simp only [accumulateEncSetup] at h
  split_ifs at h with hlen hend hnonce <;> cases h
  exact .encSetup htag (not_not.mp hend) (not_not.mp hnonce)

theorem itemStep_of_encCommit (htag : tagOf out = some .encCommit)
    (h : accumulateEncCommit P st out = (st', .accepted)) : ItemStep P slot st out st' := by
  simp only [accumulateEncCommit] at h
  split_ifs at h with hlen howner <;> try cases h
  split at h <;> cases h
  rename_i hadmitted
  exact .encCommit htag hlen (by simpa using howner) hadmitted

theorem itemStep_of_carryEncCommit (htag : tagOf out = some .carryEncCommit)
    (h : accumulateCarryEncCommit P st out = (st', .accepted)) : ItemStep P slot st out st' := by
  simp only [accumulateCarryEncCommit] at h
  split_ifs at h with hlen <;> try cases h
  split at h <;> cases h
  rename_i hadmitted
  exact .carryEncCommit htag hlen hadmitted

/-- Every accepted output takes one of the listed steps. -/
theorem itemStep_of_accepted (h : accumulateItem P slot st out = (st', .accepted)) :
    ItemStep P slot st out st' := by
  cases htag : tagOf out with
  | none =>
    have htag' : out.head?.bind Tag.ofByte = none := htag
    unfold accumulateItem at h
    rw [htag'] at h
    cases h
  | some tag =>
    by_cases hround : tag.isRound
    · obtain ⟨r, floors, mid, hstep⟩ := roundStep_of_accepted htag hround h
      exact .round hround hstep
    · have htag' : out.head?.bind Tag.ofByte = some tag := htag
      unfold accumulateItem at h
      rw [htag'] at h
      cases tag with
      | deposit => exact itemStep_of_deposit htag h
      | withdraw => exact itemStep_of_withdraw htag h
      | commit => exact itemStep_of_commit htag h
      | carryCommit => exact itemStep_of_carryCommit htag h
      | cancel => exact itemStep_of_cancel htag h
      | register => exact itemStep_of_register htag h
      | treasury => exact itemStep_of_treasury htag h
      | list => exact itemStep_of_list htag h
      | encSetup => exact itemStep_of_encSetup htag h
      | encCommit => exact itemStep_of_encCommit htag h
      | carryEncCommit => exact itemStep_of_carryEncCommit htag h
      | smatch | reveal | encRound => exact absurd rfl hround

/-! ### Refusals -/

theorem registerKey_of_known {pk : Bytes32} (h : (handleOf st pk).isSome) :
    (registerKey st pk).1 = st := by
  obtain ⟨handle, hhandle⟩ := Option.isSome_iff_exists.mp h
  simp [registerKey, hhandle]

theorem admitCommit_above (h : admitCommit st account seq = (true, st')) :
    getU64 st (.sc account) < seq := by
  rw [admitCommit_eq] at h
  split_ifs at h with habove
  · exact habove
  · cases h

theorem admitCommit_eq_false (h : admitCommit st account seq = (false, st')) : st' = st := by
  rw [admitCommit_eq] at h
  split_ifs at h
  · cases h
  · exact (Prod.mk.inj h).2.symm

/-- A refused item leaves the storage as it was: the rules that write on success write nothing when
they fail, and nothing is written before them. -/
theorem eq_of_refused (h : accumulateItem P slot st out = (st', .refused)) : st' = st := by
  unfold accumulateItem at h
  split at h
  all_goals
    try simp only [accumulateDeposit, accumulateWithdraw, accumulateCommit, accumulateCarryCommit,
      accumulateCancel, accumulateRegister, accumulateTreasury, accumulateList, accumulateReveal,
      accumulateSmatch, accumulateEncSetup, accumulateEncCommit, accumulateCarryEncCommit,
      accumulateEncRound] at h
    repeat' split at h
    -- accepted, refused before any write, or refused by the one rule that could have written
    all_goals first
      | cases h; done
      | exact (Prod.mk.inj h).1.symm
      | exact (Prod.mk.inj h).1.symm.trans (Deposit.admitNonce_eq_false (by assumption))
      | exact (Prod.mk.inj h).1.symm.trans (admitCommit_eq_false (by assumption))
      | exact (Prod.mk.inj h).1.symm.trans (Carry.admitEntry_eq_false (by assumption))
      | exact (Prod.mk.inj h).1.symm.trans (registerKey_of_known (by assumption))
      | exact (Prod.mk.inj h).1.symm.trans (consumeSet_eq_false (by assumption))

end Inversion

/-! ### The keys a step can write -/

@[simp]
def custodyKeys : Set Key := {k | ∃ asset, k = .cust asset}

/-- The keys an output of this tag can write. -/
@[simp]
def itemKeys (tag : Tag) (out : Bytes) : Set Key :=
  match tag with
  | .deposit => {.dn (u32At out 1)} ∪ (balanceKeys ∪ custodyKeys)
  | .withdraw => {.nc (u32At out 1)} ∪ (balanceKeys ∪ custodyKeys)
  | .commit => {.sc (u32At out 5)} ∪ {.cage (u32At out 1), .commits (u32At out 1)}
  | .carryCommit => ({.commits (u32At out 1)} ∪ creditKeys (u32At out 1)) ∪
      {.cage (u32At out 1), .commits (u32At out 1)}
  | .cancel => {.nc (u32At out 1)} ∪ {.book (u32At out 5)}
  | .register => registryKeys
  | .treasury => {.govnonce} ∪ balanceKeys
  | .list => {.mkt (u32At out 1), .markets}
  | .encSetup => {.comnonce} ∪ {.committee}
  | .encCommit => {.sc (u32At out encCtEnd)} ∪ {.encset (u32At out 1)}
  | .carryEncCommit => {.encset (u32At out 1)} ∪ creditKeys (u32At out 1)
  | .smatch => roundKeys (u32At out 1)
  | .reveal => roundKeys (u32At out 1)
  | .encRound => roundKeys (u32At out 1)

theorem frame_setCust (st : Storage) (asset : UInt32) (v : UInt64) :
    Frame custodyKeys st (setCust st asset v) := frame_set st _ ⟨asset, rfl⟩

theorem frame_payIn (st : Storage) (d : Deposit) :
    Frame (balanceKeys ∪ custodyKeys) st (payIn st d) :=
  (frame_setBal st _ _ _).seq (frame_setCust _ _ _)

theorem frame_payOut (st : Storage) (asset handle : UInt32) (amount : UInt64) :
    Frame (balanceKeys ∪ custodyKeys) st (payOut st asset handle amount) := by
  simp only [payOut]
  split_ifs
  · exact (frame_setBal st _ _ _).seq (frame_setCust _ _ _)
  · exact Frame.refl _ _

theorem frame_recordCommit (slot : UInt32) (st : Storage) (market : UInt32) (cid : Bytes)
    (account : UInt32) :
    Frame {.cage market, .commits market} st (recordCommit slot st market cid account) := by
  have hcage : Frame {.cage market, .commits market}
      ((gcCommits st market slot).set (.commits market) _)
      (recordCommit slot st market cid account) :=
    (frame_cageAdd _ market cid account slot).mono (by simp)
  exact ((frame_gcCommits st market slot).set _ (Or.inr rfl)).trans hcage

theorem frame_sweepTreasury (st : Storage) (asset : UInt32) (amount : UInt64) (dest : UInt32) :
    Frame balanceKeys st (sweepTreasury st asset amount dest) := by
  simp only [sweepTreasury]
  split_ifs
  · exact (frame_setBal st _ _ _).trans (frame_setBal _ _ _ _)
  · exact Frame.refl _ _

theorem frame_listMarket (st : Storage) (market base quote : UInt32) :
    Frame {.mkt market, .markets} st (listMarket st market base quote) :=
  (frame_set st _ (Or.inl rfl)).set _ (Or.inr rfl)

theorem frame_admitCommit {mid : Storage} {ok : Bool} (h : admitCommit st account seq = (ok, mid)) :
    Frame {Key.sc account} st mid := by
  rw [admitCommit_eq] at h
  split_ifs at h
  · rw [← (Prod.mk.inj h).2]
    exact frame_set_self st _ _
  · rw [← (Prod.mk.inj h).2]
    exact Frame.refl _ _

theorem Deposit.account_eq {d : Deposit} (h : Deposit.decode out = some d) :
    d.account = u32At out 1 := by
  unfold Deposit.decode at h
  split_ifs at h
  cases h
  rfl

theorem ItemStep.exists_tag {slot : UInt32} {st' : Storage} (h : ItemStep P slot st out st') :
    ∃ tag, tagOf out = some tag := by
  cases h with
  | round isRound step => exact ⟨_, step.tagged⟩
  | _ => exact ⟨_, by assumption⟩

/-- A step writes only the keys of its tag. -/
theorem ItemStep.frame {slot : UInt32} {st' : Storage} {tag : Tag} (htag : tagOf out = some tag)
    (h : ItemStep P slot st out st') : Frame (itemKeys tag out) st st' := by
  cases h with
  | @deposit d mid tagged decoded admitted =>
    cases htag.symm.trans tagged
    have hnonce : Frame {Key.dn (u32At out 1)} st mid := by
      have hframe := Deposit.frame_admitNonce st d.account d.nonce
      rwa [admitted, Deposit.account_eq decoded] at hframe
    exact hnonce.seq (frame_payIn mid d)
  | withdraw tagged =>
    cases htag.symm.trans tagged
    exact (frame_set_self st _ _).seq (frame_payOut _ _ _ _)
  | commit tagged sized owner admitted =>
    cases htag.symm.trans tagged
    exact (frame_admitCommit admitted).seq (frame_recordCommit slot _ _ _ _)
  | @carryCommit mid tagged sized admitted =>
    cases htag.symm.trans tagged
    have hcredit := Carry.frame_admitEntry st (.commits (u32At out 1)) (u32At out 1)
      (carryEntry (slice out 9 41) (u32At out 5))
    rw [admitted] at hcredit
    have hcage : Frame {.cage (u32At out 1), .commits (u32At out 1)}
        (gcCommits mid (u32At out 1) slot)
        (cageAdd (gcCommits mid (u32At out 1) slot) (u32At out 1) (slice out 9 41) (u32At out 5)
          slot) := (frame_cageAdd _ _ _ _ _).mono (by simp)
    exact hcredit.seq ((frame_gcCommits mid _ slot).trans hcage)
  | cancel tagged | encSetup tagged =>
    cases htag.symm.trans tagged
    exact (frame_set_self st _ _).seq (frame_set_self _ _ _)
  | register tagged =>
    cases htag.symm.trans tagged
    exact frame_registerKey st _
  | treasury tagged =>
    cases htag.symm.trans tagged
    exact (frame_set_self st _ _).seq (frame_sweepTreasury _ _ _ _)
  | list tagged =>
    cases htag.symm.trans tagged
    exact frame_listMarket st _ _ _
  | encCommit tagged sized owner admitted =>
    cases htag.symm.trans tagged
    exact (frame_admitCommit admitted).seq (frame_set_self _ _ _)
  | carryEncCommit tagged sized admitted =>
    cases htag.symm.trans tagged
    have hcredit := Carry.frame_admitEntry st (.encset (u32At out 1)) (u32At out 1)
      (carryEntry (commitment P (slice out 5 (5 + pointLen + orderLen))).val
        (u32At out (5 + pointLen + orderLen)))
    rwa [admitted] at hcredit
  | @round tag' r floors mid _ isRound step =>
    cases htag.symm.trans step.tagged
    have hkeys : itemKeys tag out = roundKeys (u32At out 1) := by
      cases tag with
      | smatch | reveal | encRound => rfl
      | _ => cases isRound
    rw [hkeys]
    exact step.frame

theorem runItems_concat {items : List WorkItem} (st : Storage) (item : WorkItem) :
    runItems P st (items ++ [item]) = (deliver P (runItems P st items) item).1 := by
  rw [runItems, List.foldl_append]
  rfl

/-- A delivery writes only inside `K`, if the step it may take does. -/
theorem frame_deliver {P : Primitives} {st : Storage} {item : WorkItem} {K : Set Key}
    (h : ∀ out tag st', workResult P item.payload = .ok out → tagOf out.val = some tag →
      ItemStep P item.slot st out.val st' → itemKeys tag out.val ⊆ K) :
    Frame K st (deliver P st item).1 := by
  unfold deliver
  cases hresult : workResult P item.payload with
  | error e => exact Frame.refl _ _
  | ok out =>
    cases hstep : accumulateItem P item.slot st out.val with
    | mk st' verdict =>
      simp only [hstep]
      cases verdict with
      | refused =>
        rw [eq_of_refused hstep]
        exact Frame.refl _ _
      | accepted =>
        have hitem := itemStep_of_accepted hstep
        obtain ⟨tag, htag⟩ := hitem.exists_tag
        exact (hitem.frame htag).mono (h out tag st' hresult htag hitem)

end Jamswap.Service
