import Jamswap.Service.Payload

/-!
# Who a round's fills are charged to

Refine reports fills by order id and resolves each id to the first order that carries it; ids are
chosen by the builder and signed by nobody. So a round charges every account and side exactly the
units allotted to its own orders when what the first orders of the ids take from it is what they
bring it, and in particular when every order that trades agrees with the first of its id in account
and side (`settlement_exact_iff`). The statement is about the sections refine writes, which are what
accumulate reads from any output the platform admits (`parseRoundOutput_of_workResult`).
-/

namespace Jamswap.Service

open Library Engine

variable {P : Primitives}

/-- Accumulate reads the sections refine wrote. -/
theorem parseRoundOutput_of_workResult {payload : WorkPayload} {out : WorkOutput} {inp : RoundInput}
    (hok : workResult P payload = .ok out) (hinput : roundInput P payload.val = some inp) :
    parseRoundOutput out.val = some (inp.sections P (roundId P payload.val)) := by
  have hout := workResult_eq_ok hok
  rw [refine_of_roundInput hinput] at hout
  have hsize := out.property
  rw [hout] at hsize ⊢
  exact parseRoundOutput_output P inp _ hsize

/-- Every account is charged, on each side, the units its own orders were allotted there, and so no
more than its limits admit at the clearing price. -/
def SettlementExact (P : Primitives) (inp : RoundInput) (r : RoundOutput) : Prop :=
  ∃ entries, decodeSettlement r.settle = some ((clear P inp.orders).price, entries) ∧
    ∀ account side, settledTo entries account side = allottedTo P inp.orders account side ∧
      settledTo entries account side ≤
        eligibleFor inp.orders (clear P inp.orders).price account side

theorem settlementExact_sections_iff (payload : WorkPayload) {inp : RoundInput}
    (hinput : roundInput P payload.val = some inp) (rid : Bytes32) :
    SettlementExact P inp (inp.sections P rid) ↔ ∀ account side,
      settledTo (settleEntries inp.orders (clear P inp.orders).fills) account side =
        allottedTo P inp.orders account side := by
  have hdecoded := decodeSettlement_sections hinput rid
  constructor
  · rintro ⟨entries, hentries, hexact⟩ account side
    rw [hdecoded] at hentries
    obtain ⟨-, rfl⟩ := Prod.mk.inj (Option.some.inj hentries)
    exact (hexact account side).1
  · intro h
    refine ⟨_, hdecoded, fun account side ↦ ⟨h account side, ?_⟩⟩
    rw [h account side]
    exact allottedTo_le_eligibleFor P inp.orders account side

/-- A round's settlement is exact if and only if, for every account and side, the units of its own
orders that are charged elsewhere equal those of other orders that are charged to it. -/
theorem settlement_exact_iff (P : Primitives) (payload : WorkPayload) (inp : RoundInput)
    (hinput : roundInput P payload.val = some inp) :
    (∀ out, workResult P payload = .ok out →
      parseRoundOutput out.val = some (inp.sections P (roundId P payload.val))) ∧
    (SettlementExact P inp (inp.sections P (roundId P payload.val)) ↔
      ∀ account side,
        chargedAway P inp.orders account side = chargedOver P inp.orders account side) ∧
    (FirstsAgree P inp.orders →
      SettlementExact P inp (inp.sections P (roundId P payload.val))) := by
  have hiff := settlementExact_sections_iff payload hinput (roundId P payload.val)
  refine ⟨fun _ hok ↦ parseRoundOutput_of_workResult hok hinput, ?_, fun hagree ↦ ?_⟩
  · simp only [hiff, settledTo_eq_allottedTo_iff]
  · exact hiff.mpr fun account side ↦ hagree.settledTo_eq account side

/-! ### Two orders under one id -/

/-- A book in which a buy of account 1 and a sell of account 2 carry the same id. -/
def sharedIdBook : List Order := [⟨1, 7, .buy, 5, 10⟩, ⟨2, 7, .sell, 5, 10⟩]

def sharedIdPayload : WorkPayload :=
  ⟨smatchPayload 0 1 2 (publicSectionBytes [] [] (encodeOrders sharedIdBook)), by decide +kernel⟩

/-- The same two orders at prices that do not cross. -/
def uncrossedBook : List Order := [⟨1, 7, .buy, 4, 10⟩, ⟨2, 7, .sell, 5, 10⟩]

def uncrossedPayload : WorkPayload :=
  ⟨smatchPayload 0 1 2 (publicSectionBytes [] [] (encodeOrders uncrossedBook)), by decide +kernel⟩

def uncrossedRound : RoundInput :=
  ⟨.smatch, 0, 1, 2, ⟨uncrossedBook, [], Primitives.toy.blake2s (encodeOrders uncrossedBook)⟩⟩

theorem roundInput_uncrossedPayload :
    roundInput Primitives.toy uncrossedPayload.val = some uncrossedRound := by decide +kernel

theorem allocation_uncrossed : allocation Primitives.toy uncrossedRound.orders = [] := by
  decide +kernel

/-- A shared id is harmless as long as nothing trades under it, and so are distinct ids. -/
theorem settlement_exact_uncrossed :
    SettlementExact Primitives.toy uncrossedRound
        (uncrossedRound.sections Primitives.toy (roundId Primitives.toy uncrossedPayload.val)) ∧
      SettlementExact Primitives.toy crossedRound
        (crossedRound.sections Primitives.toy (roundId Primitives.toy crossedPayload.val)) := by
  constructor
  · refine (settlement_exact_iff Primitives.toy uncrossedPayload uncrossedRound
      roundInput_uncrossedPayload).2.2 fun r _ htraded ↦ ?_
    rw [allotted_of_allocation_nil allocation_uncrossed] at htraded
    cases htraded
  · refine (settlement_exact_iff Primitives.toy crossedPayload crossedRound
      roundInput_crossedPayload).2.2 (firstsAgree_of_shared ?_)
    unfold SharedIdsAgree
    decide

/-- Both fills are charged to account 1 as a buyer; account 2's sale is charged to nobody. -/
theorem sharedIdPayload_charges_twice :
    ∃ inp out entries, roundInput Primitives.toy sharedIdPayload.val = some inp ∧
      inp.orders = sharedIdBook ∧ workResult Primitives.toy sharedIdPayload = .ok out ∧
      (parseRoundOutput out.val).bind (fun r ↦ decodeSettlement r.settle) = some (5, entries) ∧
      settledTo entries 1 .buy = 20 ∧ allottedTo Primitives.toy inp.orders 1 .buy = 10 ∧
      eligibleFor inp.orders 5 1 .buy = 10 ∧
      settledTo entries 2 .sell = 0 ∧ allottedTo Primitives.toy inp.orders 2 .sell = 10 := by
  refine ⟨⟨.smatch, 0, 1, 2,
    ⟨sharedIdBook, [], Primitives.toy.blake2s (encodeOrders sharedIdBook)⟩⟩,
    ⟨refine Primitives.toy sharedIdPayload.val, by decide +kernel⟩,
    [⟨1, .buy, 10⟩, ⟨1, .buy, 10⟩], by decide +kernel, by decide +kernel, ?_, ?_⟩
  · exact dif_pos _
  · decide +kernel

end Jamswap.Service
