import Jamswap.Library.Runs
import Jamswap.Service.CarryList
import Jamswap.Service.ItemSteps

/-!
# Carry credits over a run

A carry credit lets the builder post one commitment for an account without the owner's signature.
Credits are minted by rounds from their carry lists and spent by re-seals; nothing else touches
them (`credits_step`). Along any run in which the rounds' ids are safe, an account's re-seals on a
market stay within its starting credits and the sealed remainders its rounds left
(`carry_credits_earned`).
-/

namespace Jamswap.Service

open Library Engine Storage

variable {P : Primitives} {market account : UInt32}

/-- One if the item is an accepted re-seal for the account on the market. -/
def resealed (P : Primitives) (market account : UInt32) (st : Storage) (item : WorkItem) : ℕ :=
  let out := refine P item.payload.val
  match (deliver P st item).2, tagOf out with
  | .accepted, some .carryCommit =>
    if u32At out 1 = market ∧ u32At out 5 = account then 1 else 0
  | .accepted, some .carryEncCommit =>
    if u32At out 1 = market ∧ u32At out (5 + pointLen + orderLen) = account then 1 else 0
  | _, _ => 0

/-- The sealed remainders the item leaves the account, if it is an accepted round on the market. -/
def earned (P : Primitives) (market account : UInt32) (st : Storage) (item : WorkItem) : ℕ :=
  match (deliver P st item).2, roundInput P item.payload.val with
  | .accepted, some inp => if inp.market = market then leftSealed P inp account else 0
  | _, _ => 0

/-- If the item is an accepted round, its ids are safe for the carry list. -/
def SafeCarryStep (P : Primitives) (st : Storage) (item : WorkItem) : Prop :=
  (deliver P st item).2 = .accepted → ∀ inp, roundInput P item.payload.val = some inp →
    CarryIdsSafe (inp.publicOrders.map Order.label) (inp.sealedOrders.map Order.label)

variable {st st' : Storage} {slot : UInt32} {out : Bytes} {item : WorkItem}

theorem credits_of_frame {K : Set Key} (h : Frame K st st') (hk : .cw market account ∉ K) :
    Carry.credits st' market account = Carry.credits st market account := by
  rw [Carry.credits, Carry.credits, h.getU32?_eq hk]

/-- An admitted re-seal spends one credit of its own account and market. -/
theorem credits_admitEntry (market account : UInt32) {mid : Storage} {setKey : Key} {m : UInt32}
    {entry : Bytes} (h : Carry.admitEntry st setKey m entry = (true, mid))
    (hkey : .cw market account ≠ setKey) :
    (Carry.credits mid market account).toNat +
        (if m = market ∧ u32At entry 32 = account then 1 else 0) =
      (Carry.credits st market account).toNat := by
  obtain ⟨hcredit, -, rfl⟩ := Carry.admitEntry_eq_true h
  have hset : Carry.credits ((Carry.setCredits st m (u32At entry 32)
      (Carry.credits st m (u32At entry 32) - 1)).set setKey (st.getD setKey ++ entry))
        market account =
      Carry.credits (Carry.setCredits st m (u32At entry 32)
        (Carry.credits st m (u32At entry 32) - 1)) market account :=
    credits_of_frame (frame_set_self _ setKey _) hkey
  rw [hset]
  by_cases hm : m = market
  · subst hm
    rw [Carry.credits_setCredits]
    by_cases ha : u32At entry 32 = account
    · subst ha
      have hpos : 1 ≤ (Carry.credits st m (u32At entry 32)).toNat :=
        Nat.one_le_iff_ne_zero.mpr fun hzero ↦ hcredit (UInt32.toNat_inj.mp hzero)
      rw [if_pos rfl, if_pos ⟨rfl, rfl⟩, UInt32.toNat_sub_of_le]
      · exact Nat.sub_add_cancel hpos
      · exact UInt32.le_iff_toNat_le.mpr hpos
    · rw [if_neg (Ne.symm ha), if_neg fun h ↦ ha h.2, Nat.add_zero]
  · have hframe : Frame (creditKeys m) st (Carry.setCredits st m (u32At entry 32)
        (Carry.credits st m (u32At entry 32) - 1)) := frame_set st _ ⟨_, rfl⟩
    rw [credits_of_frame hframe, if_neg fun h ↦ hm h.1, Nat.add_zero]
    rintro ⟨a, heq⟩
    cases heq
    exact hm rfl

theorem u32At_carryEntry {cid : Bytes} (hlen : 32 ≤ cid.length) (account : UInt32) :
    u32At (carryEntry cid account) 32 = account := by
  have hcursor : Cursor (carryEntry cid account) 0 (slice cid 0 32) (u32Bytes account ++ []) := by
    rw [List.append_nil]
    exact Cursor.start _ _
  exact (hcursor.next (j := 32) (by rw [length_slice cid 0 32 hlen])).u32At_eq

/-- Apart from re-seals and rounds, no item touches a credit. -/
theorem credits_of_itemStep {tag : Tag} (htag : tagOf out = some tag)
    (hstep : ItemStep P slot st out st') (hround : tag.isRound = false)
    (hcommit : tag ≠ .carryCommit) (henc : tag ≠ .carryEncCommit) :
    Carry.credits st' market account = Carry.credits st market account := by
  refine credits_of_frame (hstep.frame htag) ?_
  cases tag with
  | carryCommit => exact absurd rfl hcommit
  | carryEncCommit => exact absurd rfl henc
  | smatch | reveal | encRound => cases hround
  | _ => simp

theorem credits_carryCommit (htag : tagOf out = some .carryCommit)
    (hstep : ItemStep P slot st out st') :
    (Carry.credits st' market account).toNat +
        (if u32At out 1 = market ∧ u32At out 5 = account then 1 else 0) =
      (Carry.credits st market account).toNat := by
  cases hstep with
  | @carryCommit mid tagged sized admitted =>
    have hcid : 32 ≤ (slice out 9 41).length := by
      rw [length_slice out 9 41 (by omega)]
    have hspent := credits_admitEntry market account admitted (by simp)
    rw [u32At_carryEntry hcid] at hspent
    rw [← hspent, credits_of_frame (frame_cageAdd _ _ _ _ _) (by simp),
      credits_of_frame (frame_gcCommits _ _ _) (by simp)]
  | round isRound step =>
    cases htag.symm.trans step.tagged
    cases isRound
  | _ => cases htag.symm.trans (by assumption)

theorem credits_carryEncCommit (htag : tagOf out = some .carryEncCommit)
    (hstep : ItemStep P slot st out st') :
    (Carry.credits st' market account).toNat +
        (if u32At out 1 = market ∧ u32At out (5 + pointLen + orderLen) = account then 1 else 0) =
      (Carry.credits st market account).toNat := by
  cases hstep with
  | carryEncCommit tagged sized admitted =>
    have hspent := credits_admitEntry market account admitted (by simp)
    rwa [u32At_carryEntry (FixedBytes.length_val _).ge] at hspent
  | round isRound step =>
    cases htag.symm.trans step.tagged
    cases isRound
  | _ => cases htag.symm.trans (by assumption)

/-- An accepted item that is not a round spends what it re-seals. -/
theorem credits_of_item {tag : Tag} (hdeliver : deliver P st item = (st', .accepted))
    (htag : tagOf (refine P item.payload.val) = some tag) (hround : tag.isRound = false)
    (hstep : ItemStep P item.slot st (refine P item.payload.val) st') :
    (Carry.credits st' market account).toNat + resealed P market account st item =
      (Carry.credits st market account).toNat := by
  simp only [resealed, hdeliver, htag]
  by_cases hcommit : tag = .carryCommit
  · subst hcommit
    exact credits_carryCommit htag hstep
  · by_cases henc : tag = .carryEncCommit
    · subst henc
      exact credits_carryEncCommit htag hstep
    · rw [credits_of_itemStep htag hstep hround hcommit henc]
      cases tag with
      | carryCommit => exact absurd rfl hcommit
      | carryEncCommit => exact absurd rfl henc
      | _ => rfl

/-- A round mints what its carry list says, for its own market only. -/
theorem RoundDelivery.credits_eq {mid : Storage} {inp : RoundInput}
    {floors : List (UInt32 × UInt64)} (h : RoundDelivery P st item inp floors mid st')
    (market account : UInt32) :
    (Carry.credits st' market account).toNat = min ((Carry.credits st market account).toNat +
      if inp.market = market then
        (Carry.accounts (inp.sections P (roundId P item.payload.val)).carry).count account
      else 0) (2 ^ 32 - 1) := by
  have hcredits := h.step.credits_eq account
  have hframe := h.step.frame
  rw [RoundDelivery.market_eq] at hcredits hframe
  split_ifs with hmarket
  · exact hmarket ▸ hcredits
  · have hlt := (Carry.credits st market account).toNat_lt
    rw [credits_of_frame hframe (by simp [roundKeys, Ne.symm hmarket])]
    omega

/-- The change of an account's credits in one item: re-seals spend, safe rounds earn. -/
theorem credits_step (hsafe : SafeCarryStep P st item) :
    (Carry.credits (deliver P st item).1 market account).toNat + resealed P market account st item ≤
      (Carry.credits st market account).toNat + earned P market account st item := by
  rcases deliver_cases P st item with hrefused | ⟨st', tag, hdeliver, htag, hround, hstep⟩ |
    ⟨st', inp, floors, mid, hdeliver, hdelivery⟩
  · simp [hrefused, resealed, earned]
  · rw [hdeliver, credits_of_item hdeliver htag hround hstep]
    exact Nat.le_add_right _ _
  · have hwithin := carryWithin_of_safe hdelivery.input
      (hsafe (by rw [hdeliver]) inp hdelivery.input) (roundId P item.payload.val) account
    have hminted := hdelivery.credits_eq market account
    have hnone : resealed P market account st item = 0 := by
      simp only [resealed, hdeliver, refine_of_roundInput hdelivery.input,
        (output_header P inp _).1]
      cases inp.kind <;> rfl
    rw [hdeliver, hnone]
    simp only [earned, hdeliver, hdelivery.input]
    split_ifs at hminted ⊢ with hmarket
    · omega
    · omega

/-- Carry credits come from one's own sealed remainders, as far as ids are safe: refine lists no
account beyond its sealed remainders for exactly the safe labels; an accepted round mints what
refine listed; and over a run of safe rounds an account's unsigned re-seals on a market stay within
the credits it started with and the sealed remainders its rounds left. -/
theorem carry_credits_earned (P : Primitives) :
    (∀ pub hidden : List Label, probeRoundLen pub hidden ≤ maxInput →
      ((∀ (payload : WorkPayload) (inp : RoundInput), roundInput P payload.val = some inp →
          inp.publicOrders.map Order.label = pub → inp.sealedOrders.map Order.label = hidden →
            CarryWithin P inp (inp.sections P (roundId P payload.val))) ↔
        CarryIdsSafe pub hidden)) ∧
    (∀ (st st' : Storage) (item : WorkItem) (tag : Tag), tagOf item.payload.val = some tag →
      tag.isRound → deliver P st item = (st', .accepted) →
        ∃ inp, roundInput P item.payload.val = some inp ∧ ∀ account,
          (Carry.credits st' inp.market account).toNat =
            min ((Carry.credits st inp.market account).toNat +
              (Carry.accounts (inp.sections P (roundId P item.payload.val)).carry).count account)
              (2 ^ 32 - 1)) ∧
    ∀ (st : Storage) (items : List WorkItem) (market account : UInt32),
      AlongRun (fun st item ↦ (deliver P st item).1) (SafeCarryStep P) st items →
      (Carry.credits (runItems P st items) market account).toNat +
          totalOver (fun st item ↦ (deliver P st item).1) (resealed P market account) st items ≤
        (Carry.credits st market account).toNat +
          totalOver (fun st item ↦ (deliver P st item).1) (earned P market account) st items := by
  refine ⟨fun pub hidden hfit ↦ carryWithin_iff P hfit, ?_, ?_⟩
  · intro st st' item tag htag hround haccepted
    obtain ⟨inp, floors, mid, hdelivery⟩ := roundDelivery_of_accepted htag hround haccepted
    refine ⟨inp, hdelivery.input, fun account ↦ ?_⟩
    rw [hdelivery.credits_eq, if_pos rfl]
  · intro st items market account hrun
    exact account_of_alongRun (fun st ↦ (Carry.credits st market account).toNat)
      (resealed P market account) (earned P market account)
      (fun _ _ hsafe ↦ credits_step hsafe) hrun

/-- Market 0 with a resting sell of account 3, and a commitment of account 1 to a sealed buy under
another id. -/
def ownIdStore : Storage :=
  Storage.set (Storage.set (Storage.set Store.empty (.mkt 0) (u32Bytes 1 ++ u32Bytes 2))
    (.book 0) (encodeOrder ⟨3, 8, .sell, 9, 5⟩))
    (.commits 0) ((Primitives.toy.blake2s (zeroReveal ⟨1, 7, .buy, 5, 2⟩)).val ++ u32Bytes 1)

/-- The buy is revealed and does not cross; then it is re-sealed for account 1. -/
def ownIdRun : List WorkItem :=
  [⟨10, ⟨revealPayload Primitives.toy 0 1 2 [zeroReveal ⟨1, 7, .buy, 5, 2⟩]
      (publicSectionBytes [] [] (encodeOrder ⟨3, 8, .sell, 9, 5⟩)), by decide +kernel⟩⟩,
    ⟨11, ⟨[Tag.carryCommit.byte] ++ u32Bytes 0 ++ u32Bytes 1 ++ List.replicate 32 4,
      by decide +kernel⟩⟩]

/-- Account 1 re-seals once, for the one sealed remainder it was left. -/
theorem carry_credits_earned_ownIdRun :
    totalOver (fun st item ↦ (deliver Primitives.toy st item).1) (resealed Primitives.toy 0 1)
        ownIdStore ownIdRun = 1 ∧
      (Carry.credits (runItems Primitives.toy ownIdStore ownIdRun) 0 1).toNat +
          totalOver (fun st item ↦ (deliver Primitives.toy st item).1)
            (resealed Primitives.toy 0 1) ownIdStore ownIdRun ≤
        (Carry.credits ownIdStore 0 1).toNat +
          totalOver (fun st item ↦ (deliver Primitives.toy st item).1)
            (earned Primitives.toy 0 1) ownIdStore ownIdRun := by
  have hids : ∀ item ∈ ownIdRun, ∀ inp ∈ roundInput Primitives.toy item.payload.val,
      IdsApart (inp.publicOrders.map Order.label) (inp.sealedOrders.map Order.label) ∧
        ((inp.sealedOrders.map Order.label).map Label.id).Nodup := by
    unfold IdsApart
    decide +kernel
  have hsafe : ∀ item ∈ ownIdRun, ∀ inp ∈ roundInput Primitives.toy item.payload.val,
      CarryIdsSafe (inp.publicOrders.map Order.label) (inp.sealedOrders.map Order.label) :=
    fun item hitem inp hinp ↦ (hids item hitem inp hinp).imp_right Or.inl
  refine ⟨by decide +kernel, (carry_credits_earned Primitives.toy).2.2 ownIdStore ownIdRun 0 1 ?_⟩
  exact ⟨fun _ inp ↦ hsafe _ List.mem_cons_self inp,
    fun _ inp ↦ hsafe _ (List.mem_cons_of_mem _ List.mem_cons_self) inp, trivial⟩

/-! ### A credit for somebody else's order -/

/-- Market 0 with a resting sell of account 3 under id 7, and a commitment of account 1 to a sealed
buy under the same id. -/
def borrowedIdStore : Storage :=
  Storage.set (Storage.set (Storage.set Store.empty (.mkt 0) (u32Bytes 1 ++ u32Bytes 2))
    (.book 0) (encodeOrder ⟨3, 7, .sell, 9, 5⟩))
    (.commits 0) ((Primitives.toy.blake2s (zeroReveal ⟨1, 7, .buy, 5, 2⟩)).val ++ u32Bytes 1)

/-- The round reveals the buy, which does not cross; then a re-seal is posted for account 3. -/
def borrowedIdRun : List WorkItem :=
  [⟨10, ⟨revealPayload Primitives.toy 0 1 2 [zeroReveal ⟨1, 7, .buy, 5, 2⟩]
      (publicSectionBytes [] [] (encodeOrder ⟨3, 7, .sell, 9, 5⟩)), by decide +kernel⟩⟩,
    ⟨11, ⟨[Tag.carryCommit.byte] ++ u32Bytes 0 ++ u32Bytes 3 ++ List.replicate 32 5,
      by decide +kernel⟩⟩]

/-- Account 3 has no sealed order at all, yet an unsigned commitment is admitted for it. -/
theorem borrowedIdRun_reseals :
    Carry.credits borrowedIdStore 0 3 = 0 ∧
      totalOver (fun st item ↦ (deliver Primitives.toy st item).1) (earned Primitives.toy 0 3)
        borrowedIdStore borrowedIdRun = 0 ∧
      totalOver (fun st item ↦ (deliver Primitives.toy st item).1) (resealed Primitives.toy 0 3)
        borrowedIdStore borrowedIdRun = 1 := by
  decide +kernel

end Jamswap.Service
