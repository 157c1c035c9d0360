import Jamswap.Service.Refine

/-!
# Accumulate: the stateful half of the service

`accumulateItem` runs one work output against storage, one function per tag. Each handler returns
the storage it leaves behind and its verdict: `refused` where the source gives up on the item
(`continue`, or the branch of a listing or registration that finds its entry already there),
`accepted` where it runs to its end. Storage is threaded through the checks that write, so that a
refused item leaving storage alone is a property of the code order and not of this definition.

`deliver` is the pipeline of one work item: refine bounded by the platform's payload and output
sizes, then accumulate.
-/

namespace Jamswap.Service

open Library Engine

inductive Verdict
  | accepted
  | refused
  deriving DecidableEq, Repr

/-! ### Round outputs -/

/-- The sections of a round output. `committeeHash` is present in encrypted rounds. -/
structure RoundOutput where
  settle : Bytes
  consumed : Bytes
  committeeHash : Option Bytes
  carry : Bytes
  trailer : AuthTrailer
  deriving DecidableEq

/-- `[..13][settle_len][settle]` then the trailer. -/
def parseSmatch (out : Bytes) : Option RoundOutput :=
  let settleLen := (u32At out 13).toNat
  if out.length < 19 + settleLen then none
  else do
    let trailer ← parseAuthTrailer out (17 + settleLen)
    return { settle := slice out 17 (17 + settleLen), consumed := [], committeeHash := none,
             carry := [], trailer }

/-- `[..13][settle_len][settle][consumed_len][consumed][ncar][carry]` then the trailer. -/
def parseReveal (out : Bytes) : Option RoundOutput :=
  let settleLen := (u32At out 13).toNat
  if out.length < 21 + settleLen then none
  else
    let consumedLen := (u32At out (17 + settleLen)).toNat
    let consumedOff := 21 + settleLen
    if out.length < consumedOff + consumedLen + 2 then none
    else
      let ncar := (u16At out (consumedOff + consumedLen)).toNat
      let carOff := consumedOff + consumedLen + 2
      if out.length < carOff + ncar * 4 + 2 then none
      else do
        let trailer ← parseAuthTrailer out (carOff + ncar * 4)
        return { settle := slice out 17 (17 + settleLen),
                 consumed := slice out consumedOff (consumedOff + consumedLen),
                 committeeHash := none, carry := slice out carOff (carOff + ncar * 4), trailer }

/-- As a reveal, with the committee hash between the consumed entries and the carry list. -/
def parseEncRound (out : Bytes) : Option RoundOutput :=
  let settleLen := (u32At out 13).toNat
  if out.length < 21 + settleLen then none
  else
    let consumedLen := (u32At out (17 + settleLen)).toNat
    let consumedOff := 21 + settleLen
    if out.length < consumedOff + consumedLen + 32 + 2 then none
    else
      let ncar := (u16At out (consumedOff + consumedLen + 32)).toNat
      let carOff := consumedOff + consumedLen + 34
      if out.length < carOff + ncar * 4 + 2 then none
      else do
        let trailer ← parseAuthTrailer out (carOff + ncar * 4)
        return { settle := slice out 17 (17 + settleLen),
                 consumed := slice out consumedOff (consumedOff + consumedLen),
                 committeeHash := some (slice out (consumedOff + consumedLen)
                   (consumedOff + consumedLen + 32)),
                 carry := slice out carOff (carOff + ncar * 4), trailer }

/-! ### Round checks and settlement -/

/-- The book refine matched against is the on-chain one, and every binding checks out. -/
def checkRoundAuth (P : Primitives) (st : Storage) (market : UInt32)
    (bindingsBlob bookHash : Bytes) :
    Option (List (UInt32 × UInt64)) :=
  if (commitment P (st.getD (.book market))).val ≠ bookHash then none
  else checkBindings (decodeBindings bindingsBlob) st (getU64 st (.lp market)) marketBandPct

def acceptRound (st : Storage) (floors : List (UInt32 × UInt64)) (rid : Bytes32) (slot : UInt32) :
    Storage :=
  markLanded (raiseOrderFloors st floors) rid slot

/-- No new orders, nothing consumed, and the book left byte-identical. -/
def isNoopRound (st : Storage) (market : UInt32) (t : AuthTrailer) (consumed : Bytes) : Bool :=
  t.bindings.isEmpty && consumed.isEmpty && st.getD (.book market) == t.book

/-- A balance moved by a signed amount, clamped to 64 bits. -/
def applyDelta (bal : UInt64) (d : ℤ) : UInt64 :=
  UInt64.ofNat (max 0 (min (bal.toNat + d) (2 ^ 64 - 1))).toNat

def settleAccount (base quote : UInt32) (st : Storage) (delta : UInt32 × ℤ × ℤ) : Storage :=
  let st := setBal st base delta.1 (applyDelta (getBal st base delta.1) delta.2.1)
  setBal st quote delta.1 (applyDelta (getBal st quote delta.1) delta.2.2)

/-- The flat fee of one introduced order, capped at the payer's balance. -/
def chargeFee (base : UInt32) (st : Storage) (b : Binding) : Storage :=
  let bal := getBal st base b.account
  let fee := min feeFlat bal
  if 0 < fee then
    let st := setBal st base b.account (bal - fee)
    setBal st base feeAccount (satAdd (getBal st base feeAccount) fee)
  else st

/-- Settle the fills at the uniform price, record price and volume, then charge the fees. -/
def applySettlement (st : Storage) (base quote market : UInt32) (settle bindings : Bytes) :
    Storage :=
  let st := match decodeSettlement settle with
    | some (price, entries) =>
      if entries.isEmpty then st
      else
        let st := (settleDeltas price entries 0 feeAccount scale).foldl
          (settleAccount base quote) st
        let volume := ((entries.filter fun e ↦ e.side == .buy).map fun e ↦ e.qty.toUInt64).sum
        let st := st.set (.lp market) (u32Bytes price)
        let cum := getU64 st (.cv market) + volume
        setU64 st (.cv market) cum
    | none => st
  (decodeBindings bindings).foldl (chargeFee base) st

/-! ### The writes of the handlers -/

/-- Credit a deposit to the account and to the custody of its asset. -/
def payIn (st : Storage) (d : Deposit) : Storage :=
  let st := setBal st d.asset d.account (satAdd (getBal st d.asset d.account) d.amount)
  setCust st d.asset (satAdd (getCust st d.asset) d.amount)

/-- Debit a withdrawal from the account and from custody, if the account can pay it. -/
def payOut (st : Storage) (asset handle : UInt32) (amount : UInt64) : Storage :=
  let b := getBal st asset handle
  if amount ≤ b then
    let st := setBal st asset handle (b - amount)
    setCust st asset (satSub (getCust st asset) amount)
  else st

/-- Append a signed commitment to the market's set, dropping expired ones first. -/
def recordCommit (slot : UInt32) (st : Storage) (market : UInt32) (cid : Bytes) (account : UInt32) :
    Storage :=
  let st := gcCommits st market slot
  let st := st.set (.commits market) (st.getD (.commits market) ++ cid ++ u32Bytes account)
  cageAdd st market cid account slot

/-- Rewrite the market's book without the account's orders of this id. -/
def unbook (st : Storage) (market handle oid : UInt32) : Storage :=
  let orders := decodeOrders (st.getD (.book market))
  let kept := orders.filter fun o ↦ !(o.account == handle && o.id == oid)
  st.set (.book market) (encodeOrders kept)

/-- Move up to `amount` out of the treasury. -/
def sweepTreasury (st : Storage) (asset : UInt32) (amount : UInt64) (dest : UInt32) : Storage :=
  let t := getBal st asset feeAccount
  let moved := min amount t
  if 0 < moved then
    let st := setBal st asset feeAccount (t - moved)
    setBal st asset dest (satAdd (getBal st asset dest) moved)
  else st

def listMarket (st : Storage) (market base quote : UInt32) : Storage :=
  let st := st.set (.mkt market) (u32Bytes base ++ u32Bytes quote)
  st.set .markets (st.getD .markets ++ u32Bytes market)

/-! ### The handlers -/

def accumulateDeposit (st : Storage) (out : Bytes) : Storage × Verdict :=
  match Deposit.decode out with
  | none => (st, .refused)
  | some d =>
    match Deposit.admitNonce st d.account d.nonce with
    | (false, st) => (st, .refused)
    | (true, st) => (payIn st d, .accepted)

/-- Is `signer` the account's registered key? -/
def isOwner (st : Storage) (handle : UInt32) (signer : Bytes) : Bool :=
  (pubkeyOf st handle).map Subtype.val == some signer

def accumulateWithdraw (st : Storage) (out : Bytes) : Storage × Verdict :=
  if out.length = withdrawBody + 32 then
    let handle := u32At out 1
    let asset := u32At out 5
    let amount := u64At out 9
    let nonce := u64At out 17
    if !isOwner st handle (out.drop withdrawBody) || nonce != getNonce st handle then (st, .refused)
    else
      let st := setNonce st handle (nonce + 1)
      (payOut st asset handle amount, .accepted)
  else (st, .refused)

def accumulateCommit (slot : UInt32) (st : Storage) (out : Bytes) : Storage × Verdict :=
  if out.length = commitBody + 32 then
    let market := u32At out 1
    let account := u32At out 5
    let cid := slice out 9 41
    let seq := u64At out 41
    if !isOwner st account (out.drop commitBody) then (st, .refused)
    else
      match admitCommit st account seq with
      | (false, st) => (st, .refused)
      | (true, st) => (recordCommit slot st market cid account, .accepted)
  else (st, .refused)

def accumulateCarryCommit (slot : UInt32) (st : Storage) (out : Bytes) : Storage × Verdict :=
  if 1 + 4 + 4 + 32 ≤ out.length then
    let market := u32At out 1
    let account := u32At out 5
    let entry := carryEntry (slice out 9 41) account
    match Carry.admitEntry st (.commits market) market entry with
    | (false, st) => (st, .refused)
    | (true, st) =>
      let st := gcCommits st market slot
      (cageAdd st market (slice out 9 41) account slot, .accepted)
  else (st, .refused)

def accumulateCancel (st : Storage) (out : Bytes) : Storage × Verdict :=
  if out.length = cancelBody + 32 then
    let handle := u32At out 1
    let market := u32At out 5
    let oid := u32At out 9
    let nonce := u64At out 13
    if !isOwner st handle (out.drop cancelBody) || nonce != getNonce st handle then (st, .refused)
    else
      let st := setNonce st handle (nonce + 1)
      (unbook st market handle oid, .accepted)
  else (st, .refused)

def accumulateRegister (st : Storage) (out : Bytes) : Storage × Verdict :=
  if out.length = 1 + 32 then
    let pk : Bytes32 := FixedBytes.ofBytes 32 (slice out 1 33)
    ((registerKey st pk).1, if (handleOf st pk).isSome then .refused else .accepted)
  else (st, .refused)

def accumulateTreasury (st : Storage) (out : Bytes) : Storage × Verdict :=
  if out.length = treasuryBody then
    let asset := u32At out 1
    let amount := u64At out 5
    let dest := u32At out 13
    let nonce := u64At out 17
    if nonce ≠ getU64 st .govnonce then (st, .refused)
    else
      let st := setU64 st .govnonce (nonce + 1)
      (sweepTreasury st asset amount dest, .accepted)
  else (st, .refused)

def accumulateList (st : Storage) (out : Bytes) : Storage × Verdict :=
  if 1 + 4 + 4 + 4 ≤ out.length then
    let market := u32At out 1
    if (marketAssets st market).isNone then
      (listMarket st market (u32At out 5) (u32At out 9), .accepted)
    else (st, .refused)
  else (st, .refused)

def accumulateEncSetup (st : Storage) (out : Bytes) : Storage × Verdict :=
  if 1 + 1 + 8 ≤ out.length then
    let n := (byteAt out 1).toNat
    let pksEnd := 2 + n * 32
    if out.length ≠ pksEnd + 8 then (st, .refused)
    else
      let pks := slice out 2 pksEnd
      let nonce := u64At out pksEnd
      if nonce ≠ getU64 st .comnonce then (st, .refused)
      else
        let st := setU64 st .comnonce (nonce + 1)
        (st.set .committee (UInt8.ofNat n :: pks), .accepted)
  else (st, .refused)

def accumulateEncCommit (P : Primitives) (st : Storage) (out : Bytes) : Storage × Verdict :=
  if out.length = encCommitBody + 32 then
    let market := u32At out 1
    let id := commitment P (slice out 5 encCtEnd)
    let account := u32At out encCtEnd
    let seq := u64At out (encCtEnd + 4)
    if !isOwner st account (out.drop encCommitBody) then (st, .refused)
    else
      match admitCommit st account seq with
      | (false, st) => (st, .refused)
      | (true, st) =>
        (st.set (.encset market) (st.getD (.encset market) ++ id.val ++ u32Bytes account),
          .accepted)
  else (st, .refused)

def accumulateCarryEncCommit (P : Primitives) (st : Storage) (out : Bytes) : Storage × Verdict :=
  if 1 + 4 + pointLen + orderLen + 4 ≤ out.length then
    let market := u32At out 1
    let ctEnd := 5 + pointLen + orderLen
    let entry := carryEntry (commitment P (slice out 5 ctEnd)).val (u32At out ctEnd)
    match Carry.admitEntry st (.encset market) market entry with
    | (false, st) => (st, .refused)
    | (true, st) => (st, .accepted)
  else (st, .refused)

def accumulateReveal (P : Primitives) (slot : UInt32) (st : Storage) (out : Bytes) :
    Storage × Verdict :=
  if 21 ≤ out.length then
    let market := u32At out 1
    let base := u32At out 5
    let quote := u32At out 9
    if marketAssets st market ≠ some (base, quote) then (st, .refused)
    else
      match parseReveal out with
      | none => (st, .refused)
      | some r =>
        if isNoopRound st market r.trailer r.consumed then (st, .refused)
        else
          match checkRoundAuth P st market r.trailer.bindings r.trailer.bookHash with
          | none => (st, .refused)
          | some floors =>
            match consumeSet st (.commits market) r.consumed with
            | (false, st) => (st, .refused)
            | (true, st) =>
              let st := cagePurge st market r.consumed
              let st := acceptRound st floors r.trailer.roundId slot
              let st := Carry.mint st market r.carry
              let st := st.set (.book market) r.trailer.book
              (applySettlement st base quote market r.settle r.trailer.bindings, .accepted)
  else (st, .refused)

def accumulateSmatch (P : Primitives) (slot : UInt32) (st : Storage) (out : Bytes) :
    Storage × Verdict :=
  if 19 ≤ out.length then
    let market := u32At out 1
    let base := u32At out 5
    let quote := u32At out 9
    if marketAssets st market ≠ some (base, quote) then (st, .refused)
    else
      match parseSmatch out with
      | none => (st, .refused)
      | some r =>
        if isNoopRound st market r.trailer [] then (st, .refused)
        else
          match checkRoundAuth P st market r.trailer.bindings r.trailer.bookHash with
          | none => (st, .refused)
          | some floors =>
            let st := acceptRound st floors r.trailer.roundId slot
            let st := st.set (.book market) r.trailer.book
            (applySettlement st base quote market r.settle r.trailer.bindings, .accepted)
  else (st, .refused)

def accumulateEncRound (P : Primitives) (slot : UInt32) (st : Storage) (out : Bytes) :
    Storage × Verdict :=
  if 23 + 32 ≤ out.length then
    let market := u32At out 1
    let base := u32At out 5
    let quote := u32At out 9
    if marketAssets st market ≠ some (base, quote) then (st, .refused)
    else
      match parseEncRound out with
      | none => (st, .refused)
      | some r =>
        if isNoopRound st market r.trailer r.consumed then (st, .refused)
        else
          let committee := st.getD .committee
          if committee.isEmpty ∨ some (committeeHash P committee).val ≠ r.committeeHash then
            (st, .refused)
          else
            match checkRoundAuth P st market r.trailer.bindings r.trailer.bookHash with
            | none => (st, .refused)
            | some floors =>
              match consumeSet st (.encset market) r.consumed with
              | (false, st) => (st, .refused)
              | (true, st) =>
                let st := acceptRound st floors r.trailer.roundId slot
                let st := Carry.mint st market r.carry
                let st := st.set (.book market) r.trailer.book
                (applySettlement st base quote market r.settle r.trailer.bindings, .accepted)
  else (st, .refused)

/-- Accumulate one work output. -/
def accumulateItem (P : Primitives) (slot : UInt32) (st : Storage) (out : Bytes) :
    Storage × Verdict :=
  match out.head?.bind Tag.ofByte with
  | none => (st, .refused)
  | some .deposit => accumulateDeposit st out
  | some .withdraw => accumulateWithdraw st out
  | some .commit => accumulateCommit slot st out
  | some .carryCommit => accumulateCarryCommit slot st out
  | some .cancel => accumulateCancel st out
  | some .register => accumulateRegister st out
  | some .treasury => accumulateTreasury st out
  | some .list => accumulateList st out
  | some .reveal => accumulateReveal P slot st out
  | some .smatch => accumulateSmatch P slot st out
  | some .encSetup => accumulateEncSetup st out
  | some .encCommit => accumulateEncCommit P st out
  | some .carryEncCommit => accumulateCarryEncCommit P st out
  | some .encRound => accumulateEncRound P slot st out

/-! ### The pipeline of one work item -/

/-- The platform's bound on a work item's payload, in bytes. -/
def maxInput : ℕ := 13791360

/-- The platform's bound on a report's elective data, work outputs included, in bytes. -/
def maxReportElectiveData : ℕ := 48 * 1024

/-- A payload the platform admits. -/
def WorkPayload := { b : Bytes // b.length ≤ maxInput }

/-- A work output the platform admits. -/
def WorkOutput := { b : Bytes // b.length ≤ maxReportElectiveData }

inductive WorkError
  | outputOversize
  deriving DecidableEq, Repr

/-- Refine under the platform: an output over the bound is reported as an error, which accumulate
skips. -/
def workResult (P : Primitives) (payload : WorkPayload) : Except WorkError WorkOutput :=
  if h : (refine P payload.val).length ≤ maxReportElectiveData then .ok ⟨refine P payload.val, h⟩
  else .error .outputOversize

/-- One work item of a run: a payload, and the slot its result is accumulated in. -/
structure WorkItem where
  slot : UInt32
  payload : WorkPayload

/-- Refine a work item and accumulate its result. -/
def deliver (P : Primitives) (st : Storage) (item : WorkItem) : Storage × Verdict :=
  match workResult P item.payload with
  | .ok out => accumulateItem P item.slot st out.val
  | .error _ => (st, .refused)

/-- The storage after a sequence of work items. -/
def runItems (P : Primitives) (st : Storage) (items : List WorkItem) : Storage :=
  items.foldl (fun st item ↦ (deliver P st item).1) st

end Jamswap.Service
