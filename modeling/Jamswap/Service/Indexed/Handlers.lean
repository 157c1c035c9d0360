import Jamswap.Service.Indexed.Refine
import Jamswap.Service.Indexed.Sets

/-!
# Accumulate with its indexing

The handlers of accumulate, written with the accesses the source makes, over any storage. Together
with `refine_eq` this is the absence of faults: whatever bytes refine and accumulate are given, and
whatever storage holds, no index or range leaves its buffer and no copy is between slices of
different lengths (`refine_accumulate_never_fault`).
-/

namespace Jamswap.Service.Indexed

open Library Library.Access Engine
open Library.Parse (Runs)

/-! ### The age index -/

/-- The expiry of an index entry, zero for one too short. -/
def expiryAt (b : Bytes) (off : ℕ) : Access UInt32 :=
  if off + 4 > b.length then .ok 0 else word32 b off

/-- Entry `j` of the index, kept or reaped. -/
def reapEntry (index : Bytes) (now : UInt32) (entry key : ℕ) (split : Bytes × Bytes) (j : ℕ) :
    Access (Bytes × Bytes) := do
  let e ← range index (j * entry) ((j + 1) * entry)
  let expiry ← expiryAt e key
  if expiry ≤ now then
    let k ← range e 0 key
    .ok (split.1, split.2 ++ k)
  else .ok (split.1 ++ e, split.2)

def reapExpired (index : Bytes) (now : UInt32) (entry key : ℕ) : Access (Bytes × Bytes) :=
  if entry = 0 ∨ entry < key + 4 then .ok (index, [])
  else (List.range (index.length / entry)).foldlM (reapEntry index now entry key) ([], [])

/-- What a pass of the loop does with an entry. -/
def splitEntry (now : UInt32) (key : ℕ) (split : Bytes × Bytes) (e : Bytes) : Bytes × Bytes :=
  if u32At e key ≤ now then (split.1, split.2 ++ e.take key) else (split.1 ++ e, split.2)

theorem reapEntry_eq {index : Bytes} (now : UInt32) {entry key : ℕ} (hwidths : key + 4 ≤ entry)
    (split : Bytes × Bytes) {j : ℕ} (hj : j < index.length / entry) :
    reapEntry index now entry key split j =
      .ok (splitEntry now key split (slice index (j * entry) ((j + 1) * entry))) := by
  obtain ⟨hle, hend⟩ := record_inside hj
  have hlen : (slice index (j * entry) ((j + 1) * entry)).length = entry := by
    rw [length_slice index _ _ hend, Nat.succ_mul]
    omega
  rw [reapEntry, range_eq hle hend, ok_bind, expiryAt, if_neg (by omega), word32_eq (by omega),
    ok_bind, splitEntry]
  split_ifs
  · rw [range_eq (Nat.zero_le _) (by omega), ok_bind]
    rfl
  · rfl

theorem foldl_splitEntry (now : UInt32) (key : ℕ) (entries : List Bytes) (split : Bytes × Bytes) :
    entries.foldl (splitEntry now key) split =
      (split.1 ++ (entries.filter fun e ↦ !decide (u32At e key ≤ now)).flatten,
        split.2 ++ (entries.filter fun e ↦ decide (u32At e key ≤ now)).flatMap
          fun e ↦ e.take key) := by
  induction entries generalizing split with
  | nil => simp
  | cons e entries ih =>
    rw [List.foldl_cons, ih, splitEntry]
    by_cases hdead : u32At e key ≤ now <;> simp [hdead]

theorem reapExpired_eq (index : Bytes) (now : UInt32) (entry key : ℕ) :
    reapExpired index now entry key = .ok (Service.reapExpired index now entry key) := by
  rw [reapExpired, Service.reapExpired]
  split_ifs with hwidths
  · rfl
  · have hloop := foldlM_eq (fun split j hj ↦ @reapEntry_eq index now entry key
      (by omega) split j (List.mem_range.mp hj)) ([], [])
    have hrecords := foldl_splitEntry now key (records entry index) ([], [])
    rw [records, List.foldl_map] at hrecords
    rw [hloop, hrecords]
    rfl

def cagePurge (st : Storage) (market : UInt32) (consumed : Bytes) : Access Storage := do
  let out ← removeFirstMatch (st.getD (.cage market)) consumed cageEntryLen setEntryLen
  .ok (st.set (.cage market) out)

variable (st : Storage) (out : Bytes)

theorem cagePurge_eq (market : UInt32) (consumed : Bytes) :
    cagePurge st market consumed = .ok (Service.cagePurge st market consumed) := by
  rw [cagePurge, removeFirstMatch_eq, ok_bind]
  rfl

def gcCommits (st : Storage) (market slot : UInt32) : Access Storage := do
  let split ← reapExpired (st.getD (.cage market)) slot cageEntryLen setEntryLen
  if split.2.isEmpty then .ok st
  else
    let st := st.set (.cage market) split.1
    let out ← removeFirstMatch (st.getD (.commits market)) split.2 setEntryLen setEntryLen
    .ok (st.set (.commits market) out)

theorem gcCommits_eq (market slot : UInt32) :
    gcCommits st market slot = .ok (Service.gcCommits st market slot) := by
  simp only [gcCommits, Service.gcCommits]
  rw [reapExpired_eq, ok_bind]
  split_ifs
  · rfl
  · rw [removeFirstMatch_eq, ok_bind]

/-! ### Rounds -/

section Sections

def parseSmatch (out : Bytes) : Parse RoundOutput := do
  let settleLen := (← Parse.access (word32 out 13)).toNat
  if out.length < 19 + settleLen then failure
  else
    let settle ← Parse.access (range out 17 (17 + settleLen))
    let trailer ← parseAuthTrailer out (17 + settleLen)
    pure { settle, consumed := [], committeeHash := none, carry := [], trailer }

def parseReveal (out : Bytes) : Parse RoundOutput := do
  let settleLen := (← Parse.access (word32 out 13)).toNat
  if out.length < 21 + settleLen then failure
  else
    let settle ← Parse.access (range out 17 (17 + settleLen))
    let consumedLen := (← Parse.access (word32 out (17 + settleLen))).toNat
    let consumedOff := 21 + settleLen
    if out.length < consumedOff + consumedLen + 2 then failure
    else
      let consumed ← Parse.access (range out consumedOff (consumedOff + consumedLen))
      let ncar := (← Parse.access (word16 out (consumedOff + consumedLen))).toNat
      let carOff := consumedOff + consumedLen + 2
      if out.length < carOff + ncar * 4 + 2 then failure
      else
        let carry ← Parse.access (range out carOff (carOff + ncar * 4))
        let trailer ← parseAuthTrailer out (carOff + ncar * 4)
        pure { settle, consumed, committeeHash := none, carry, trailer }

def parseEncRound (out : Bytes) : Parse RoundOutput := do
  let settleLen := (← Parse.access (word32 out 13)).toNat
  if out.length < 21 + settleLen then failure
  else
    let settle ← Parse.access (range out 17 (17 + settleLen))
    let consumedLen := (← Parse.access (word32 out (17 + settleLen))).toNat
    let consumedOff := 21 + settleLen
    if out.length < consumedOff + consumedLen + 32 + 2 then failure
    else
      let consumed ← Parse.access (range out consumedOff (consumedOff + consumedLen))
      let ch ← Parse.access (range out (consumedOff + consumedLen) (consumedOff + consumedLen + 32))
      let ncar := (← Parse.access (word16 out (consumedOff + consumedLen + 32))).toNat
      let carOff := consumedOff + consumedLen + 34
      if out.length < carOff + ncar * 4 + 2 then failure
      else
        let carry ← Parse.access (range out carOff (carOff + ncar * 4))
        let trailer ← parseAuthTrailer out (carOff + ncar * 4)
        pure { settle, consumed, committeeHash := some ch, carry, trailer }

variable {out : Bytes}

theorem parseSmatch_runs (h : 19 ≤ out.length) :
    Runs (parseSmatch out) (Service.parseSmatch out) := by
  refine Runs.access (word32_eq (by omega)) ?_
  refine Runs.ite (fun _ ↦ Runs.fail) fun hsettle ↦ ?_
  refine Runs.access (range_eq (by omega) (by omega)) ?_
  exact Runs.bind (parseAuthTrailer_runs _ _) fun trailer _ ↦ Runs.pure _

theorem parseReveal_runs (h : 21 ≤ out.length) :
    Runs (parseReveal out) (Service.parseReveal out) := by
  refine Runs.access (word32_eq (by omega)) ?_
  refine Runs.ite (fun _ ↦ Runs.fail) fun hsettle ↦ ?_
  refine Runs.access (range_eq (by omega) (by omega)) ?_
  refine Runs.access (word32_eq (by omega)) ?_
  refine Runs.ite (fun _ ↦ Runs.fail) fun hconsumed ↦ ?_
  refine Runs.access (range_eq (by omega) (by omega)) ?_
  refine Runs.access (word16_eq (by omega)) ?_
  refine Runs.ite (fun _ ↦ Runs.fail) fun hcarry ↦ ?_
  refine Runs.access (range_eq (by omega) (by omega)) ?_
  exact Runs.bind (parseAuthTrailer_runs _ _) fun trailer _ ↦ Runs.pure _

theorem parseEncRound_runs (h : 23 + 32 ≤ out.length) :
    Runs (parseEncRound out) (Service.parseEncRound out) := by
  refine Runs.access (word32_eq (by omega)) ?_
  refine Runs.ite (fun _ ↦ Runs.fail) fun hsettle ↦ ?_
  refine Runs.access (range_eq (by omega) (by omega)) ?_
  refine Runs.access (word32_eq (by omega)) ?_
  refine Runs.ite (fun _ ↦ Runs.fail) fun hconsumed ↦ ?_
  refine Runs.access (range_eq (by omega) (by omega)) ?_
  refine Runs.access (range_eq (by omega) (by omega)) ?_
  refine Runs.access (word16_eq (by omega)) ?_
  refine Runs.ite (fun _ ↦ Runs.fail) fun hcarry ↦ ?_
  refine Runs.access (range_eq (by omega) (by omega)) ?_
  exact Runs.bind (parseAuthTrailer_runs _ _) fun trailer _ ↦ Runs.pure _

end Sections

/-! ### Balances and settlement -/

def getBal (st : Storage) (asset account : UInt32) : Access UInt64 := getU64 st (.bal asset account)

def getCust (st : Storage) (asset : UInt32) : Access UInt64 := getU64 st (.cust asset)

def getNonce (st : Storage) (handle : UInt32) : Access UInt64 := getU64 st (.nc handle)

theorem getBal_eq (asset account : UInt32) :
    getBal st asset account = .ok (Service.getBal st asset account) := getU64_eq _ _

theorem getCust_eq (asset : UInt32) :
    getCust st asset = .ok (Service.getCust st asset) := getU64_eq _ _

theorem getNonce_eq (handle : UInt32) :
    getNonce st handle = .ok (Service.getNonce st handle) := getU64_eq _ _

def checkRoundAuth (P : Primitives) (st : Storage) (market : UInt32)
    (bindingsBlob bookHash : Bytes) : Parse (List (UInt32 × UInt64)) :=
  if (commitment P (st.getD (.book market))).val ≠ bookHash then failure
  else do
    let lp ← Parse.access (getU64 st (.lp market))
    let bindings ← Parse.access (decodeBindings bindingsBlob)
    checkBindings bindings st lp marketBandPct

theorem checkRoundAuth_runs (P : Primitives) (st : Storage) (market : UInt32)
    (bindingsBlob bookHash : Bytes) :
    Runs (checkRoundAuth P st market bindingsBlob bookHash)
      (Service.checkRoundAuth P st market bindingsBlob bookHash) := by
  refine Runs.ite (fun _ ↦ Runs.fail) fun _ ↦ ?_
  refine Runs.access (getU64_eq _ _) (Runs.access (decodeBindings_eq _) ?_)
  exact checkBindings_runs _ _ _ _

def acceptRound (st : Storage) (floors : List (UInt32 × UInt64)) (rid : Bytes32) (slot : UInt32) :
    Access Storage :=
  markLanded (raiseOrderFloors st floors) rid slot

theorem acceptRound_eq (floors : List (UInt32 × UInt64)) (rid : Bytes32) (slot : UInt32) :
    acceptRound st floors rid slot = .ok (Service.acceptRound st floors rid slot) :=
  markLanded_eq _ _ _

def settleAccount (base quote : UInt32) (st : Storage) (delta : UInt32 × ℤ × ℤ) :
    Access Storage := do
  let b ← getBal st base delta.1
  let st := setBal st base delta.1 (applyDelta b delta.2.1)
  let q ← getBal st quote delta.1
  .ok (setBal st quote delta.1 (applyDelta q delta.2.2))

theorem settleAccount_eq (base quote : UInt32) (st : Storage) (delta : UInt32 × ℤ × ℤ) :
    settleAccount base quote st delta = .ok (Service.settleAccount base quote st delta) := by
  simp only [settleAccount]
  rw [getBal_eq, ok_bind, getBal_eq, ok_bind]
  rfl

def chargeFee (base : UInt32) (st : Storage) (b : Binding) : Access Storage := do
  let bal ← getBal st base b.account
  let fee := min feeFlat bal
  if 0 < fee then
    let st := setBal st base b.account (bal - fee)
    let treasury ← getBal st base feeAccount
    .ok (setBal st base feeAccount (satAdd treasury fee))
  else .ok st

theorem chargeFee_eq (base : UInt32) (st : Storage) (b : Binding) :
    chargeFee base st b = .ok (Service.chargeFee base st b) := by
  simp only [chargeFee, Service.chargeFee]
  rw [getBal_eq, ok_bind]
  split_ifs
  · rw [getBal_eq, ok_bind]
  · rfl

/-- The fills of a settlement, with the last price and the volume they leave. -/
def settleFills (st : Storage) (base quote market : UInt32) (price : UInt32)
    (entries : List SettleEntry) : Access Storage := do
  let st ← (settleDeltas price entries 0 feeAccount scale).foldlM (settleAccount base quote) st
  let volume := ((entries.filter fun e ↦ e.side == .buy).map fun e ↦ e.qty.toUInt64).sum
  let st := st.set (.lp market) (u32Bytes price)
  let cum ← getU64 st (.cv market)
  .ok (setU64 st (.cv market) (cum + volume))

def applySettlement (st : Storage) (base quote market : UInt32) (settle bindings : Bytes) :
    Access Storage := do
  let st ← match ← (decodeSettlement settle).run with
    | some (price, entries) =>
      if entries.isEmpty then .ok st else settleFills st base quote market price entries
    | none => .ok st
  (← decodeBindings bindings).foldlM (chargeFee base) st

theorem applySettlement_eq (base quote market : UInt32) (settle bindings : Bytes) :
    applySettlement st base quote market settle bindings =
      .ok (Service.applySettlement st base quote market settle bindings) := by
  have hfees : ∀ st : Storage,
      (decodeBindings bindings >>= fun bs ↦ bs.foldlM (chargeFee base) st) =
      .ok ((Engine.decodeBindings bindings).foldl (Service.chargeFee base) st) := by
    intro st
    rw [decodeBindings_eq, ok_bind]
    exact foldlM_eq (fun st b _ ↦ chargeFee_eq base st b) st
  rw [applySettlement, (decodeSettlement_runs settle).run_bind, Service.applySettlement]
  cases Engine.decodeSettlement settle with
  | none => exact hfees st
  | some decoded =>
    obtain ⟨price, entries⟩ := decoded
    simp only
    split_ifs with hempty
    · exact hfees st
    · rw [settleFills, foldlM_eq (fun st delta _ ↦ settleAccount_eq base quote st delta) st,
        ok_bind]
      dsimp only
      rw [getU64_eq, ok_bind, ok_bind]
      exact hfees _

/-! ### The handlers -/

def payIn (st : Storage) (d : Deposit) : Access Storage := do
  let b ← getBal st d.asset d.account
  let st := setBal st d.asset d.account (satAdd b d.amount)
  let c ← getCust st d.asset
  .ok (setCust st d.asset (satAdd c d.amount))

theorem payIn_eq (d : Deposit) : payIn st d = .ok (Service.payIn st d) := by
  simp only [payIn]
  rw [getBal_eq, ok_bind, getCust_eq, ok_bind]
  rfl

def accumulateDeposit (st : Storage) (out : Bytes) : Access (Storage × Verdict) := do
  match ← (decodeDeposit out).run with
  | none => .ok (st, .refused)
  | some d =>
    let admitted ← admitNonce st d.account d.nonce
    if admitted.1 then
      let st ← payIn admitted.2 d
      .ok (st, .accepted)
    else .ok (admitted.2, .refused)

theorem accumulateDeposit_eq :
    accumulateDeposit st out = .ok (Service.accumulateDeposit st out) := by
  rw [accumulateDeposit, (decodeDeposit_runs out).run_bind, Service.accumulateDeposit]
  cases Deposit.decode out with
  | none => rfl
  | some d =>
    simp only
    rw [admitNonce_eq, ok_bind]
    obtain ⟨admitted, st'⟩ := Deposit.admitNonce st d.account d.nonce
    cases admitted with
    | false => rfl
    | true =>
      rw [if_pos rfl, payIn_eq, ok_bind]

/-- Is the key that follows the body of `out` the account's registered one? -/
def isOwner (st : Storage) (handle : UInt32) (out : Bytes) (body : ℕ) : Access Bool := do
  let key ← pubkeyOf st handle
  let signer ← rangeFrom out body
  .ok (key.map Subtype.val == some signer)

theorem isOwner_eq (handle : UInt32) {out : Bytes} {body : ℕ} (h : body ≤ out.length) :
    isOwner st handle out body = .ok (Service.isOwner st handle (out.drop body)) := by
  rw [isOwner, pubkeyOf_eq, ok_bind, rangeFrom_eq h, ok_bind]
  rfl

/-- The owner's key and the account's next nonce: `&&` in the source, which stops at a wrong key. -/
def isNext (st : Storage) (handle : UInt32) (nonce : UInt64) (out : Bytes) (body : ℕ) :
    Access Bool := do
  let owner ← isOwner st handle out body
  if owner then
    let next ← getNonce st handle
    .ok (nonce == next)
  else .ok false

theorem isNext_eq (handle : UInt32) (nonce : UInt64) {out : Bytes} {body : ℕ}
    (h : body ≤ out.length) :
    isNext st handle nonce out body =
      .ok (Service.isOwner st handle (out.drop body) && nonce == Service.getNonce st handle) := by
  rw [isNext, isOwner_eq st handle h, ok_bind]
  cases Service.isOwner st handle (out.drop body) with
  | false => rfl
  | true =>
    rw [if_pos rfl, getNonce_eq, ok_bind]
    rfl

def payOut (st : Storage) (asset handle : UInt32) (amount : UInt64) : Access Storage := do
  let b ← getBal st asset handle
  if amount ≤ b then
    let st := setBal st asset handle (b - amount)
    let c ← getCust st asset
    .ok (setCust st asset (satSub c amount))
  else .ok st

theorem payOut_eq (asset handle : UInt32) (amount : UInt64) :
    payOut st asset handle amount = .ok (Service.payOut st asset handle amount) := by
  simp only [payOut, Service.payOut]
  rw [getBal_eq, ok_bind]
  split_ifs
  · rw [getCust_eq, ok_bind]
  · rfl

def accumulateWithdraw (st : Storage) (out : Bytes) : Access (Storage × Verdict) :=
  if out.length = withdrawBody + 32 then do
    let handle ← word32 out 1
    let asset ← word32 out 5
    let amount ← rangeU64 out 9 17
    let nonce ← rangeU64 out 17 25
    let next ← isNext st handle nonce out withdrawBody
    if next then
      let st ← payOut (setNonce st handle (nonce + 1)) asset handle amount
      .ok (st, .accepted)
    else .ok (st, .refused)
  else .ok (st, .refused)

/-- The refusal of a signed operation, as a case split on its acceptance. -/
theorem refuse_or {α : Type} (owner : Bool) (nonce next : UInt64) (refused accepted : α) :
    (if (!owner || nonce != next) = true then refused else accepted) =
      if (owner && nonce == next) = true then accepted else refused := by
  cases owner with
  | false => rfl
  | true => by_cases hnonce : nonce = next <;> simp [hnonce]

theorem accumulateWithdraw_eq :
    accumulateWithdraw st out = .ok (Service.accumulateWithdraw st out) := by
  rw [accumulateWithdraw, Service.accumulateWithdraw]
  split_ifs with h
  · have hlen : out.length = 57 := h
    have hbody : withdrawBody ≤ out.length := by
      rw [h]
      decide
    simp (disch := omega) only [word32_eq, rangeU64_eq, isNext_eq st _ _ hbody, ok_bind]
    rw [refuse_or]
    split_ifs
    · rw [payOut_eq, ok_bind]
    · rfl
  · rfl

def recordCommit (slot : UInt32) (st : Storage) (market : UInt32) (cid : Bytes) (account : UInt32) :
    Access Storage := do
  let st ← gcCommits st market slot
  let st := st.set (.commits market) (st.getD (.commits market) ++ cid ++ u32Bytes account)
  .ok (cageAdd st market cid account slot)

theorem recordCommit_eq (slot : UInt32) (st : Storage) (market : UInt32) (cid : Bytes)
    (account : UInt32) :
    recordCommit slot st market cid account =
      .ok (Service.recordCommit slot st market cid account) := by
  rw [recordCommit, gcCommits_eq, ok_bind]
  rfl

def accumulateCommit (slot : UInt32) (st : Storage) (out : Bytes) : Access (Storage × Verdict) :=
  if out.length = commitBody + 32 then do
    let market ← word32 out 1
    let account ← word32 out 5
    let cid ← array 32 (← range out 9 41)
    let seq ← rangeU64 out 41 49
    let owner ← isOwner st account out commitBody
    if owner then
      let admitted ← admitCommit st account seq
      if admitted.1 then
        let st ← recordCommit slot admitted.2 market cid.val account
        .ok (st, .accepted)
      else .ok (admitted.2, .refused)
    else .ok (st, .refused)
  else .ok (st, .refused)

theorem accumulateCommit_eq (slot : UInt32) (st : Storage) (out : Bytes) :
    accumulateCommit slot st out = .ok (Service.accumulateCommit slot st out) := by
  rw [accumulateCommit, Service.accumulateCommit]
  split_ifs with h
  · have hlen : out.length = 81 := h
    have hbody : commitBody ≤ out.length := by
      rw [h]
      decide
    have hcid : (slice out 9 41).length = 32 := length_slice out 9 41 (by omega)
    simp (disch := omega) only [word32_eq, range_eq, array_eq hcid, rangeU64_eq,
      isOwner_eq st _ hbody, FixedBytes.val_ofBytes hcid, ok_bind]
    cases Service.isOwner st (u32At out 5) (out.drop commitBody) with
    | false => rfl
    | true =>
      rw [if_pos rfl, admitCommit_eq, ok_bind]
      obtain ⟨admitted, st'⟩ := Service.admitCommit st (u32At out 5) (u64At out 41)
      cases admitted with
      | false => rfl
      | true =>
        rw [if_pos rfl, recordCommit_eq, ok_bind]
        rfl
  · rfl

def accumulateCarryCommit (slot : UInt32) (st : Storage) (out : Bytes) :
    Access (Storage × Verdict) :=
  if 1 + 4 + 4 + 32 ≤ out.length then do
    let market ← word32 out 1
    let account ← word32 out 5
    let entry ← carryEntry (← range out 9 41) account
    let admitted ← admitEntry st (.commits market) market entry
    if admitted.1 then
      let st ← gcCommits admitted.2 market slot
      let cid ← range out 9 41
      .ok (cageAdd st market cid account slot, .accepted)
    else .ok (admitted.2, .refused)
  else .ok (st, .refused)

theorem length_carryEntry {id : Bytes} (h : 32 ≤ id.length) (account : UInt32) :
    (Service.carryEntry id account).length = setEntryLen := by
  rw [Service.carryEntry, List.length_append, length_slice id 0 32 h, length_u32Bytes]
  rfl

theorem accumulateCarryCommit_eq (slot : UInt32) (st : Storage) (out : Bytes) :
    accumulateCarryCommit slot st out = .ok (Service.accumulateCarryCommit slot st out) := by
  rw [accumulateCarryCommit, Service.accumulateCarryCommit]
  split_ifs with hlen
  · have hid : 32 ≤ (slice out 9 41).length := (length_slice out 9 41 (by omega)).ge
    simp (disch := omega) only [word32_eq, range_eq, carryEntry_eq hid,
      admitEntry_eq st _ _ (length_carryEntry hid _), ok_bind]
    obtain ⟨admitted, st'⟩ := Carry.admitEntry st (.commits (u32At out 1)) (u32At out 1)
      (Service.carryEntry (slice out 9 41) (u32At out 5))
    cases admitted with
    | false => rfl
    | true => rw [if_pos rfl, gcCommits_eq, ok_bind]
  · rfl

def unbook (st : Storage) (market handle oid : UInt32) : Access Storage := do
  let orders ← decodeOrders (st.getD (.book market))
  let kept := orders.filter fun o ↦ !(o.account == handle && o.id == oid)
  .ok (st.set (.book market) (encodeOrders kept))

theorem unbook_eq (market handle oid : UInt32) :
    unbook st market handle oid = .ok (Service.unbook st market handle oid) := by
  rw [unbook, decodeOrders_eq, ok_bind]
  rfl

def accumulateCancel (st : Storage) (out : Bytes) : Access (Storage × Verdict) :=
  if out.length = cancelBody + 32 then do
    let handle ← word32 out 1
    let market ← word32 out 5
    let oid ← word32 out 9
    let nonce ← rangeU64 out 13 21
    let next ← isNext st handle nonce out cancelBody
    if next then
      let st ← unbook (setNonce st handle (nonce + 1)) market handle oid
      .ok (st, .accepted)
    else .ok (st, .refused)
  else .ok (st, .refused)

theorem accumulateCancel_eq : accumulateCancel st out = .ok (Service.accumulateCancel st out) := by
  rw [accumulateCancel, Service.accumulateCancel]
  split_ifs with h
  · have hlen : out.length = 53 := h
    have hbody : cancelBody ≤ out.length := by
      rw [h]
      decide
    simp (disch := omega) only [word32_eq, rangeU64_eq, isNext_eq st _ _ hbody, ok_bind]
    rw [refuse_or]
    split_ifs
    · rw [unbook_eq, ok_bind]
    · rfl
  · rfl

def accumulateRegister (st : Storage) (out : Bytes) : Access (Storage × Verdict) :=
  if out.length = 1 + 32 then do
    let pk ← array 32 (← range out 1 33)
    let known ← handleOf st pk
    let registered ← registerKey st pk
    .ok (registered.1, if known.isSome then .refused else .accepted)
  else .ok (st, .refused)

theorem accumulateRegister_eq :
    accumulateRegister st out = .ok (Service.accumulateRegister st out) := by
  rw [accumulateRegister, Service.accumulateRegister]
  split_ifs with hlen
  · have hpk : (slice out 1 33).length = 32 := length_slice out 1 33 (by omega)
    simp (disch := omega) only [range_eq, array_eq hpk, handleOf, getU32_eq, registerKey_eq,
      ok_bind]
    rfl
  · rfl

def sweepTreasury (st : Storage) (asset : UInt32) (amount : UInt64) (dest : UInt32) :
    Access Storage := do
  let t ← getBal st asset feeAccount
  let moved := min amount t
  if 0 < moved then
    let st := setBal st asset feeAccount (t - moved)
    let b ← getBal st asset dest
    .ok (setBal st asset dest (satAdd b moved))
  else .ok st

theorem sweepTreasury_eq (asset : UInt32) (amount : UInt64) (dest : UInt32) :
    sweepTreasury st asset amount dest = .ok (Service.sweepTreasury st asset amount dest) := by
  simp only [sweepTreasury, Service.sweepTreasury]
  rw [getBal_eq, ok_bind]
  split_ifs
  · rw [getBal_eq, ok_bind]
  · rfl

def accumulateTreasury (st : Storage) (out : Bytes) : Access (Storage × Verdict) :=
  if out.length = treasuryBody then do
    let asset ← word32 out 1
    let amount ← rangeU64 out 5 13
    let dest ← word32 out 13
    let nonce ← rangeU64 out 17 25
    let govNonce ← getU64 st .govnonce
    if nonce ≠ govNonce then .ok (st, .refused)
    else
      let st ← sweepTreasury (setU64 st .govnonce (nonce + 1)) asset amount dest
      .ok (st, .accepted)
  else .ok (st, .refused)

theorem accumulateTreasury_eq :
    accumulateTreasury st out = .ok (Service.accumulateTreasury st out) := by
  rw [accumulateTreasury, Service.accumulateTreasury]
  split_ifs with h
  · have hlen : out.length = 25 := h
    simp (disch := omega) only [word32_eq, rangeU64_eq, getU64_eq, ok_bind]
    split_ifs
    · rfl
    · rw [sweepTreasury_eq, ok_bind]
  · rfl

def accumulateList (st : Storage) (out : Bytes) : Access (Storage × Verdict) :=
  if 1 + 4 + 4 + 4 ≤ out.length then do
    let market ← word32 out 1
    let base ← word32 out 5
    let quote ← word32 out 9
    let listed ← marketAssets st market
    if listed.isNone then .ok (listMarket st market base quote, .accepted)
    else .ok (st, .refused)
  else .ok (st, .refused)

theorem accumulateList_eq : accumulateList st out = .ok (Service.accumulateList st out) := by
  rw [accumulateList, Service.accumulateList]
  split_ifs with hlen
  · simp (disch := omega) only [word32_eq, marketAssets_eq, ok_bind]
    split_ifs
    · rfl
    · rfl
  · rfl

def accumulateEncSetup (st : Storage) (out : Bytes) : Access (Storage × Verdict) :=
  if 1 + 1 + 8 ≤ out.length then do
    let n := (← index out 1).toNat
    let pksEnd := 2 + n * 32
    if out.length ≠ pksEnd + 8 then .ok (st, .refused)
    else
      let pks ← range out 2 pksEnd
      let nonce ← rangeU64 out pksEnd (pksEnd + 8)
      let comNonce ← getU64 st .comnonce
      if nonce ≠ comNonce then .ok (st, .refused)
      else
        let st := setU64 st .comnonce (nonce + 1)
        .ok (st.set .committee (UInt8.ofNat n :: pks), .accepted)
  else .ok (st, .refused)

theorem accumulateEncSetup_eq :
    accumulateEncSetup st out = .ok (Service.accumulateEncSetup st out) := by
  rw [accumulateEncSetup, Service.accumulateEncSetup]
  split_ifs with hlen
  · rw [index_byte (by omega), ok_bind]
    dsimp only
    generalize (byteAt out 1).toNat = n
    by_cases hexact : out.length = 2 + n * 32 + 8
    · rw [if_neg (not_not.mpr hexact), if_neg (not_not.mpr hexact), range_eq (by omega) (by omega),
        ok_bind, rangeU64_eq rfl (by omega), ok_bind, getU64_eq, ok_bind]
      split_ifs
      · rfl
      · rfl
    · rw [if_pos hexact, if_pos hexact]
  · rfl

def accumulateEncCommit (P : Primitives) (st : Storage) (out : Bytes) :
    Access (Storage × Verdict) :=
  if out.length = encCommitBody + 32 then do
    let market ← word32 out 1
    let id := commitment P (← range out 5 encCtEnd)
    let account ← word32 out encCtEnd
    let seq ← rangeU64 out (encCtEnd + 4) (encCtEnd + 12)
    let owner ← isOwner st account out encCommitBody
    if owner then
      let admitted ← admitCommit st account seq
      if admitted.1 then
        let st := admitted.2
        .ok (st.set (.encset market) (st.getD (.encset market) ++ id.val ++ u32Bytes account),
          .accepted)
      else .ok (admitted.2, .refused)
    else .ok (st, .refused)
  else .ok (st, .refused)

theorem accumulateEncCommit_eq (P : Primitives) (st : Storage) (out : Bytes) :
    accumulateEncCommit P st out = .ok (Service.accumulateEncCommit P st out) := by
  rw [accumulateEncCommit, Service.accumulateEncCommit]
  split_ifs with h
  · have hlen : out.length = 98 := h
    have hend : encCtEnd = 54 := rfl
    have hbody : encCommitBody ≤ out.length := by
      rw [h]
      decide
    simp (disch := omega) only [word32_eq, range_eq, rangeU64_eq, isOwner_eq st _ hbody, ok_bind]
    cases Service.isOwner st (u32At out encCtEnd) (out.drop encCommitBody) with
    | false => rfl
    | true =>
      rw [if_pos rfl, admitCommit_eq, ok_bind]
      obtain ⟨admitted, st'⟩ := Service.admitCommit st (u32At out encCtEnd)
        (u64At out (encCtEnd + 4))
      cases admitted with
      | false | true => rfl
  · rfl

def accumulateCarryEncCommit (P : Primitives) (st : Storage) (out : Bytes) :
    Access (Storage × Verdict) :=
  if 1 + 4 + pointLen + orderLen + 4 ≤ out.length then do
    let market ← word32 out 1
    let ctEnd := 5 + pointLen + orderLen
    let id := commitment P (← range out 5 ctEnd)
    let account ← word32 out ctEnd
    let entry ← carryEntry id.val account
    let admitted ← admitEntry st (.encset market) market entry
    .ok (admitted.2, if admitted.1 then .accepted else .refused)
  else .ok (st, .refused)

theorem accumulateCarryEncCommit_eq (P : Primitives) (st : Storage) (out : Bytes) :
    accumulateCarryEncCommit P st out = .ok (Service.accumulateCarryEncCommit P st out) := by
  rw [accumulateCarryEncCommit, Service.accumulateCarryEncCommit]
  split_ifs with hlen
  · have hid : 32 ≤ (commitment P (slice out 5 (5 + pointLen + orderLen))).val.length :=
      (FixedBytes.length_val _).ge
    simp (disch := omega) only [word32_eq, range_eq, carryEntry_eq hid,
      admitEntry_eq st _ _ (length_carryEntry hid _), ok_bind]
    obtain ⟨admitted, st'⟩ := Carry.admitEntry st (.encset (u32At out 1)) (u32At out 1)
      (Service.carryEntry (commitment P (slice out 5 (5 + pointLen + orderLen))).val
        (u32At out (5 + pointLen + orderLen)))
    cases admitted with
    | false | true => rfl
  · rfl

section Rounds

variable (P : Primitives) (slot : UInt32) (st : Storage) (out : Bytes)

def accumulateReveal : Access (Storage × Verdict) :=
  if 21 ≤ out.length then do
    let market ← word32 out 1
    let base ← word32 out 5
    let quote ← word32 out 9
    let listed ← marketAssets st market
    if listed ≠ some (base, quote) then .ok (st, .refused)
    else
      match ← (parseReveal out).run with
      | none => .ok (st, .refused)
      | some r =>
        if isNoopRound st market r.trailer r.consumed then .ok (st, .refused)
        else
          match ← (checkRoundAuth P st market r.trailer.bindings r.trailer.bookHash).run with
          | none => .ok (st, .refused)
          | some floors =>
            let consumed ← consumeSet st (.commits market) r.consumed
            if consumed.1 then
              let st ← cagePurge consumed.2 market r.consumed
              let st ← acceptRound st floors r.trailer.roundId slot
              let st ← mint st market r.carry
              let st := st.set (.book market) r.trailer.book
              let st ← applySettlement st base quote market r.settle r.trailer.bindings
              .ok (st, .accepted)
            else .ok (consumed.2, .refused)
  else .ok (st, .refused)

theorem accumulateReveal_eq :
    accumulateReveal P slot st out = .ok (Service.accumulateReveal P slot st out) := by
  rw [accumulateReveal, Service.accumulateReveal]
  split_ifs with hlen
  · simp (disch := omega) only [word32_eq, marketAssets_eq, ok_bind]
    split_ifs with hlisted
    · rfl
    · rw [(parseReveal_runs hlen).run_bind]
      cases Service.parseReveal out with
      | none => rfl
      | some r =>
        dsimp only
        split_ifs with hnoop
        · rfl
        · rw [(checkRoundAuth_runs P st _ _ _).run_bind]
          cases Service.checkRoundAuth P st (u32At out 1) r.trailer.bindings r.trailer.bookHash with
          | none => rfl
          | some floors =>
            dsimp only
            rw [consumeSet_eq, ok_bind]
            obtain ⟨consumed, st'⟩ := Service.consumeSet st (.commits (u32At out 1)) r.consumed
            cases consumed with
            | false => rfl
            | true =>
              simp only [if_true, cagePurge_eq, acceptRound_eq, mint_eq, applySettlement_eq,
                ok_bind]
  · rfl

def accumulateSmatch : Access (Storage × Verdict) :=
  if 19 ≤ out.length then do
    let market ← word32 out 1
    let base ← word32 out 5
    let quote ← word32 out 9
    let listed ← marketAssets st market
    if listed ≠ some (base, quote) then .ok (st, .refused)
    else
      match ← (parseSmatch out).run with
      | none => .ok (st, .refused)
      | some r =>
        if isNoopRound st market r.trailer [] then .ok (st, .refused)
        else
          match ← (checkRoundAuth P st market r.trailer.bindings r.trailer.bookHash).run with
          | none => .ok (st, .refused)
          | some floors =>
            let st ← acceptRound st floors r.trailer.roundId slot
            let st := st.set (.book market) r.trailer.book
            let st ← applySettlement st base quote market r.settle r.trailer.bindings
            .ok (st, .accepted)
  else .ok (st, .refused)

theorem accumulateSmatch_eq :
    accumulateSmatch P slot st out = .ok (Service.accumulateSmatch P slot st out) := by
  rw [accumulateSmatch, Service.accumulateSmatch]
  split_ifs with hlen
  · simp (disch := omega) only [word32_eq, marketAssets_eq, ok_bind]
    split_ifs with hlisted
    · rfl
    · rw [(parseSmatch_runs hlen).run_bind]
      cases Service.parseSmatch out with
      | none => rfl
      | some r =>
        dsimp only
        split_ifs with hnoop
        · rfl
        · rw [(checkRoundAuth_runs P st _ _ _).run_bind]
          cases Service.checkRoundAuth P st (u32At out 1) r.trailer.bindings r.trailer.bookHash with
          | none => rfl
          | some floors =>
            simp only [acceptRound_eq, applySettlement_eq, ok_bind]
  · rfl

def accumulateEncRound : Access (Storage × Verdict) :=
  if 23 + 32 ≤ out.length then do
    let market ← word32 out 1
    let base ← word32 out 5
    let quote ← word32 out 9
    let listed ← marketAssets st market
    if listed ≠ some (base, quote) then .ok (st, .refused)
    else
      match ← (parseEncRound out).run with
      | none => .ok (st, .refused)
      | some r =>
        if isNoopRound st market r.trailer r.consumed then .ok (st, .refused)
        else
          let committee := st.getD .committee
          if committee.isEmpty ∨ some (committeeHash P committee).val ≠ r.committeeHash then
            .ok (st, .refused)
          else
            match ← (checkRoundAuth P st market r.trailer.bindings r.trailer.bookHash).run with
            | none => .ok (st, .refused)
            | some floors =>
              let consumed ← consumeSet st (.encset market) r.consumed
              if consumed.1 then
                let st ← acceptRound consumed.2 floors r.trailer.roundId slot
                let st ← mint st market r.carry
                let st := st.set (.book market) r.trailer.book
                let st ← applySettlement st base quote market r.settle r.trailer.bindings
                .ok (st, .accepted)
              else .ok (consumed.2, .refused)
  else .ok (st, .refused)

theorem accumulateEncRound_eq :
    accumulateEncRound P slot st out = .ok (Service.accumulateEncRound P slot st out) := by
  rw [accumulateEncRound, Service.accumulateEncRound]
  split_ifs with hlen
  · simp (disch := omega) only [word32_eq, marketAssets_eq, ok_bind]
    split_ifs with hlisted
    · rfl
    · rw [(parseEncRound_runs hlen).run_bind]
      cases Service.parseEncRound out with
      | none => rfl
      | some r =>
        dsimp only
        split_ifs with hnoop hcommittee
        · rfl
        · rfl
        · rw [(checkRoundAuth_runs P st _ _ _).run_bind]
          cases Service.checkRoundAuth P st (u32At out 1) r.trailer.bindings r.trailer.bookHash with
          | none => rfl
          | some floors =>
            dsimp only
            rw [consumeSet_eq, ok_bind]
            obtain ⟨consumed, st'⟩ := Service.consumeSet st (.encset (u32At out 1)) r.consumed
            cases consumed with
            | false => rfl
            | true =>
              simp only [if_true, acceptRound_eq, mint_eq, applySettlement_eq, ok_bind]
  · rfl

def accumulateItem : Access (Storage × Verdict) :=
  if out.isEmpty then .ok (st, .refused)
  else do
    let t ← index out 0
    match Tag.ofByte t with
    | none => .ok (st, .refused)
    | some .deposit => accumulateDeposit st out
    | some .withdraw => accumulateWithdraw st out
    | some .commit => accumulateCommit slot st out
    | some .carryCommit => accumulateCarryCommit slot st out
    | some .cancel => accumulateCancel st out
    | some .register => accumulateRegister st out
    | some .treasury => accumulateTreasury st out
    | some .list => accumulateList st out
    | some .reveal => accumulateReveal P slot st out
    | some .smatch => accumulateSmatch P slot st out
    | some .encSetup => accumulateEncSetup st out
    | some .encCommit => accumulateEncCommit P st out
    | some .carryEncCommit => accumulateCarryEncCommit P st out
    | some .encRound => accumulateEncRound P slot st out

/-- Accumulate finishes on every output, in every storage. -/
theorem accumulateItem_eq :
    accumulateItem P slot st out = .ok (Service.accumulateItem P slot st out) := by
  cases out with
  | nil => rfl
  | cons t rest =>
    have hfirst : index (t :: rest) 0 = .ok t := rfl
    rw [accumulateItem, if_neg (by simp), hfirst, ok_bind, Service.accumulateItem, List.head?_cons,
      Option.bind_some]
    cases Tag.ofByte t with
    | none => rfl
    | some tag =>
      cases tag with
      | deposit => exact accumulateDeposit_eq st _
      | withdraw => exact accumulateWithdraw_eq st _
      | commit => exact accumulateCommit_eq slot st _
      | carryCommit => exact accumulateCarryCommit_eq slot st _
      | cancel => exact accumulateCancel_eq st _
      | register => exact accumulateRegister_eq st _
      | treasury => exact accumulateTreasury_eq st _
      | list => exact accumulateList_eq st _
      | reveal => exact accumulateReveal_eq P slot st _
      | smatch => exact accumulateSmatch_eq P slot st _
      | encSetup => exact accumulateEncSetup_eq st _
      | encCommit => exact accumulateEncCommit_eq P st _
      | carryEncCommit => exact accumulateCarryEncCommit_eq P st _
      | encRound => exact accumulateEncRound_eq P slot st _

end Rounds

/-- No input crashes the service. On every payload refine finishes, and on every output accumulate
finishes in every storage: no access of either leaves its buffer, no copy is between slices of
different lengths, and the results are those of the total functions. -/
theorem refine_accumulate_never_fault (P : Primitives) :
    (∀ data, refine P data = .ok (Service.refine P data)) ∧
      ∀ slot st out,
        accumulateItem P slot st out = .ok (Service.accumulateItem P slot st out) :=
  ⟨refine_eq P, accumulateItem_eq P⟩

end Jamswap.Service.Indexed
