import Jamswap.Service.CarryCredits
import Jamswap.Service.EncSet

/-!
# The balance of carry credits

Every credit a round mints for an account is either still unspent or was spent on one re-seal. The
counter stops at its largest value, so the balance is exact as long as fewer credits than that are
minted (`credits_balance_step`). A re-seal spends its credit on an entry its set does not hold,
which is then in the set once: in the commit set the reaping that comes with the admission cannot
take it, since the age index holds only what the set holds (`count_carried`).
-/

namespace Jamswap.Service

open Library Engine Storage

section Credits

variable (P : Primitives) (market account : UInt32) (st : Storage) (item : WorkItem)

/-- The credits the item mints for the account, if it is an accepted round on the market. -/
def minted : ℕ :=
  let out := refine P item.payload.val
  match (deliver P st item).2, parseRoundOutput out with
  | .accepted, some r => if u32At out 1 = market then (Carry.accounts r.carry).count account else 0
  | _, _ => 0

/-- The entry an accepted re-seal inserts, and the key of its set. -/
def carried : Option (Key × Bytes) :=
  let out := refine P item.payload.val
  match (deliver P st item).2, tagOf out with
  | .accepted, some .carryCommit =>
    some (.commits (u32At out 1), carryEntry (slice out 9 41) (u32At out 5))
  | .accepted, some .carryEncCommit =>
    some (.encset (u32At out 1),
      carryEntry (commitment P (slice out 5 (5 + pointLen + orderLen))).val
      (u32At out (5 + pointLen + orderLen)))
  | _, _ => none

variable {P market account st item}

theorem parseRoundOutput_of_not_round {out : Bytes} {tag : Tag} (htag : tagOf out = some tag)
    (hround : tag.isRound = false) : parseRoundOutput out = none := by
  rw [parseRoundOutput, htag]
  cases tag with
  | smatch | reveal | encRound => cases hround
  | _ => rfl

/-- Below the counter's bound an item changes the credits by what it mints and spends. -/
theorem credits_balance_step
    (hbound : (Carry.credits st market account).toNat + minted P market account st item < 2 ^ 32) :
    (Carry.credits (deliver P st item).1 market account).toNat + resealed P market account st item =
      (Carry.credits st market account).toNat + minted P market account st item := by
  rcases deliver_cases P st item with hrefused | ⟨st', tag, hdeliver, htag, hround, hstep⟩ |
    ⟨st', inp, floors, mid, hdeliver, hdelivery⟩
  · simp [hrefused, resealed, minted]
  · have hminted : minted P market account st item = 0 := by
      simp only [minted, hdeliver, parseRoundOutput_of_not_round htag hround]
    rw [hdeliver, hminted]
    exact credits_of_item hdeliver htag hround hstep
  · have hout := refine_of_roundInput hdelivery.input
    have hspent : resealed P market account st item = 0 := by
      simp only [resealed, hdeliver, hout, (output_header P inp _).1]
      cases inp.kind <;> rfl
    have hminted : minted P market account st item = if inp.market = market then
        (Carry.accounts (inp.sections P (roundId P item.payload.val)).carry).count account
      else 0 := by
      simp only [minted, hdeliver, hout, hdelivery.step.parsed, RoundDelivery.market_eq]
    rw [hdeliver, hspent, hdelivery.credits_eq, ← hminted]
    omega

end Credits

/-! ### The entry of a re-seal -/

section Entries

variable {P : Primitives} {market : UInt32} {st st' : Storage} {item : WorkItem}

/-- An admission to the commit set of an entry that is not in it leaves one copy: what it reaps is
in the age index, hence was in the set. -/
theorem count_addedEntry {idx : List (Bytes × UInt32)} {e : Bytes} (h : InStep st market idx [])
    (hadded : addedEntry P market st item = some e)
    (hfresh : e ∉ records setEntryLen (st.getD (.commits market))) :
    (records setEntryLen ((deliver P st item).1.getD (.commits market))).count e = 1 := by
  have hnone : (stampsOf idx e).length = 0 := by
    have hcount := h.count_commits e
    rw [List.count_eq_zero_of_not_mem hfresh] at hcount
    omega
  have hlive : (stampsOf (idx.filter fun c ↦ !decide (c.2 ≤ item.slot)) e).length = 0 := by
    refine Nat.le_zero.mp (hnone ▸ ?_)
    exact ((List.filter_sublist.filter _).map Prod.snd).length_le
  rw [(inStep_deliver h).1.count_commits, ageStep, hadded, stampsOf_append,
    List.length_append, hlive]
  simp [stampsOf]

/-- A re-seal inserts an entry its set did not hold, and then holds once. -/
theorem count_carried {items : List WorkItem} {key : Key} {entry : Bytes}
    (h : carried P (runItems P Store.empty items) item = some (key, entry)) :
    entry ∉ records setEntryLen ((runItems P Store.empty items).getD key) ∧
      (records setEntryLen
        ((deliver P (runItems P Store.empty items) item).1.getD key)).count entry = 1 := by
  rcases deliver_cases P (runItems P Store.empty items) item with hrefused |
    ⟨st', tag, hdeliver, htag, hround, hstep⟩ | ⟨st', inp, floors, mid, hdeliver, hdelivery⟩
  · simp [carried, hrefused] at h
  · simp only [carried, hdeliver, htag] at h
    cases tag with
    | carryCommit =>
      cases h
      cases hstep with
      | carryCommit tagged sized admitted =>
        have hcid : (slice (refine P item.payload.val) 9 41).length = 32 := length_slice _ _ _ sized
        obtain ⟨-, hfresh, -⟩ := Carry.admitEntry_eq_true admitted
        obtain ⟨idx, hidx⟩ := inStep_runItems P (u32At (refine P item.payload.val) 1) items
        refine ⟨hfresh, count_addedEntry hidx ?_ hfresh⟩
        simp only [addedEntry, hdeliver, htag, if_true, carryEntry_eq hcid]
      | round isRound step =>
        cases htag.symm.trans step.tagged
        cases isRound
      | _ => cases htag.symm.trans (by assumption)
    | carryEncCommit =>
      cases h
      cases hstep with
      | carryEncCommit tagged sized admitted =>
        obtain ⟨-, hfresh, -⟩ := Carry.admitEntry_eq_true admitted
        have hsized : (carryEntry (commitment P (slice (refine P item.payload.val) 5
            (5 + pointLen + orderLen))).val (u32At (refine P item.payload.val)
              (5 + pointLen + orderLen))).length = setEntryLen := by
          rw [carryEntry_eq (FixedBytes.length_val _)]
          exact length_entry (FixedBytes.length_val _) _
        refine ⟨hfresh, ?_⟩
        rw [hdeliver, getD_admitEntry admitted,
          (wholeEntries_runItems P _ items).records_append hsized, List.count_append,
          List.count_eq_zero_of_not_mem (l := records setEntryLen _) hfresh,
          List.count_singleton_self]
      | round isRound step =>
        cases htag.symm.trans step.tagged
        cases isRound
      | _ => cases htag.symm.trans (by assumption)
    | _ => cases h
  · simp only [carried, hdeliver, refine_of_roundInput hdelivery.input, hdelivery.step.tagged] at h
    cases hkind : inp.kind <;> simp [hkind, RoundKind.tag] at h

end Entries

/-- Carry credits balance. If a run mints fewer than `2 ^ 32` credits for an account on a market,
the account's unspent credits there and its admitted re-seals, of both kinds together, make up the
credits minted; every admitted re-seal inserts an entry its set did not hold, and which it holds
once afterwards; and a refused item writes nothing. -/
theorem carry_credits_balance (P : Primitives) (items : List WorkItem) (market account : UInt32)
    (hminted : totalOver (fun st item ↦ (deliver P st item).1) (minted P market account) Store.empty
      items < 2 ^ 32) :
    (Carry.credits (runItems P Store.empty items) market account).toNat +
        totalOver (fun st item ↦ (deliver P st item).1) (resealed P market account)
          Store.empty items =
      totalOver (fun st item ↦ (deliver P st item).1) (minted P market account) Store.empty items ∧
    ∀ before item after, items = before ++ item :: after →
      (∀ key entry, carried P (runItems P Store.empty before) item = some (key, entry) →
        entry ∉ records setEntryLen ((runItems P Store.empty before).getD key) ∧
          (records setEntryLen ((runItems P Store.empty (before ++ [item])).getD key)).count entry =
            1) ∧
      ((deliver P (runItems P Store.empty before) item).2 = .refused →
        runItems P Store.empty (before ++ [item]) = runItems P Store.empty before) := by
  constructor
  · have hnone : (Carry.credits Store.empty market account).toNat = 0 := rfl
    have hbound : (Carry.credits Store.empty market account).toNat +
        totalOver (fun st item ↦ (deliver P st item).1) (minted P market account)
          Store.empty items <
          2 ^ 32 := by omega
    have hbalance := balance_of_run (fun st ↦ (Carry.credits st market account).toNat)
      (resealed P market account) (minted P market account) (2 ^ 32)
      (fun _ _ hbound ↦ credits_balance_step hbound) hbound
    rwa [hnone, Nat.zero_add] at hbalance
  · intro before item after _
    rw [runItems_concat]
    refine ⟨fun key entry hcarried ↦ count_carried hcarried, fun hrefused ↦ ?_⟩
    rcases deliver_cases P (runItems P Store.empty before) item with hsame |
      ⟨st', tag, hdeliver, -⟩ | ⟨st', inp, floors, mid, hdeliver, -⟩
    · rw [hsame]
    · rw [hdeliver] at hrefused
      cases hrefused
    · rw [hdeliver] at hrefused
      cases hrefused

/-- A sealed buy that nobody sells to: its round mints a credit, the first re-seal spends it, and
the second finds none. -/
def resealRun : List WorkItem :=
  [firstRegistration,
    ⟨2, ⟨[Tag.list.byte] ++ u32Bytes 0 ++ u32Bytes 3 ++ u32Bytes 4, by decide +kernel⟩⟩,
    firstOwnersCommit 3 (commitment Primitives.toy (zeroReveal ⟨1, 7, .buy, 5, 2⟩)) 1,
    ⟨10, ⟨revealPayload Primitives.toy 0 3 4 [zeroReveal ⟨1, 7, .buy, 5, 2⟩]
      (publicSectionBytes [] [] []), by decide +kernel⟩⟩,
    ⟨11, ⟨[Tag.carryCommit.byte] ++ u32Bytes 0 ++ u32Bytes 1 ++ List.replicate 32 5,
      by decide +kernel⟩⟩,
    ⟨12, ⟨[Tag.carryCommit.byte] ++ u32Bytes 0 ++ u32Bytes 1 ++ List.replicate 32 6,
      by decide +kernel⟩⟩]

theorem carry_credits_balance_resealRun :
    totalOver (fun st item ↦ (deliver Primitives.toy st item).1) (minted Primitives.toy 0 1)
        Store.empty resealRun = 1 ∧
      totalOver (fun st item ↦ (deliver Primitives.toy st item).1) (resealed Primitives.toy 0 1)
        Store.empty resealRun = 1 ∧
      Carry.credits (runItems Primitives.toy Store.empty resealRun) 0 1 = 0 := by
  have hminted : totalOver (fun st item ↦ (deliver Primitives.toy st item).1)
      (minted Primitives.toy 0 1) Store.empty resealRun = 1 := by decide +kernel
  have hresealed : totalOver (fun st item ↦ (deliver Primitives.toy st item).1)
      (resealed Primitives.toy 0 1) Store.empty resealRun = 1 := by decide +kernel
  have hbalance := (carry_credits_balance Primitives.toy resealRun 0 1
    (by rw [hminted]; decide)).1
  rw [hminted, hresealed] at hbalance
  refine ⟨hminted, hresealed, UInt32.toNat_inj.mp ?_⟩
  simpa using hbalance

end Jamswap.Service
