import Jamswap.Service.CarryList

/-!
# Reading a round's output back

Refine lays a round's output out and accumulate cuts it up again, each computing its own offsets.
`RoundInput.ReadBack` lists what accumulate gets: header, settlement, consumed entries, committee
hash, carried accounts and the trailer, each as refine had it, with one settlement entry per fill.

The counts are written in 16 and 32 bits. The platform hands accumulate no output over its bound,
and within it every count fits, so the whole of every output accumulate gets is read back
(`output_read_back`).
-/

namespace Jamswap.Service

open Library Engine

/-- Accumulate's reading `r` of a round's output `out`, against what refine put in. -/
structure RoundInput.ReadBack (P : Primitives) (inp : RoundInput) (rid : Bytes32) (out : Bytes)
    (r : RoundOutput) : Prop where
  parsed : parseRoundOutput out = some r
  market : u32At out 1 = inp.market
  base : u32At out 5 = inp.base
  quote : u32At out 9 = inp.quote
  settle : r.settle = (clearRound P inp.ps inp.sealedOrders).settle
  consumed : records setEntryLen r.consumed = inp.kind.opened.map Opened.entry
  committeeHash : r.committeeHash = inp.kind.committeeHash? P
  carry : Carry.accounts r.carry = (clearRound P inp.ps inp.sealedOrders).carry
  bindings : decodeBindings r.trailer.bindings = inp.ps.bindings
  bookHash : r.trailer.bookHash = inp.ps.bookHash.val
  roundId : r.trailer.roundId = rid
  book : r.trailer.book = (clearRound P inp.ps inp.sealedOrders).book
  /-- one entry per fill, in order, at the clearing price -/
  entries : ∃ entries, decodeSettlement r.settle = some ((clear P inp.orders).price, entries) ∧
    List.Forall₂ (fun f e ↦ resolveFill inp.orders f = some e) (clear P inp.orders).fills entries

/-- Accumulate reads back exactly what refine wrote. -/
theorem output_read_back (P : Primitives) (payload : WorkPayload) (out : WorkOutput)
    (inp : RoundInput) (hok : workResult P payload = .ok out)
    (hinput : roundInput P payload.val = some inp) :
    ∃ r, inp.ReadBack P (roundId P payload.val) out.val r := by
  have hspec := roundInput_spec hinput
  have hparsed := parseRoundOutput_of_workResult hok hinput
  have hout := workResult_eq_ok hok
  rw [refine_of_roundInput hinput] at hout
  obtain ⟨-, hmarket, hbase, hquote⟩ := output_header P inp (roundId P payload.val)
  rw [← hout] at hmarket hbase hquote
  refine ⟨inp.sections P (roundId P payload.val), ?_⟩
  constructor
  · exact hparsed
  · exact hmarket
  · exact hbase
  · exact hquote
  · rfl
  · exact hspec.records_consumed
  · rfl
  · exact accounts_sections P inp _
  · exact decodeBindings_encodeBindings _
  · rfl
  · rfl
  · rfl
  · exact ⟨_, decodeSettlement_sections hinput _, forall₂_settleEntries (clear_fills_resolve P _)⟩

/-- A sealed buy on a book with a sell under its id. -/
def namesakePayload : WorkPayload :=
  ⟨revealPayload Primitives.toy 0 1 2 [zeroReveal ⟨4, 7, .buy, 5, 3⟩]
    (publicSectionBytes [] [] (encodeOrders [⟨3, 7, .sell, 5, 1⟩])), by decide +kernel⟩

theorem output_read_back_namesake :
    ∃ inp out r, roundInput Primitives.toy namesakePayload.val = some inp ∧
      inp.sealedOrders = [⟨4, 7, .buy, 5, 3⟩] ∧
      workResult Primitives.toy namesakePayload = .ok out ∧
      inp.ReadBack Primitives.toy (roundId Primitives.toy namesakePayload.val) out.val r := by
  have hok : workResult Primitives.toy namesakePayload =
      .ok ⟨refine Primitives.toy namesakePayload.val, by decide +kernel⟩ := dif_pos _
  have hinput : roundInput Primitives.toy namesakePayload.val = some _ :=
    roundInput_reveals (by simp [length_zeroReveal]) (by simp) (by simp) (by simp)
  obtain ⟨r, hr⟩ := output_read_back Primitives.toy namesakePayload _ _ hok hinput
  exact ⟨_, _, r, hinput, by decide +kernel, hok, hr⟩

end Jamswap.Service
