import Jamswap.Service.Keys
import Jamswap.Library.Consume
import Jamswap.Engine.Settlement
import Jamswap.Engine.Auth

/-!
# The state-side rules of accumulate

The functions accumulate runs against storage, one section per module of the source: balances and
the account registry, replay floors, carry credits, deposit idempotency, landed-round markers and
the commit sets. Storage is passed explicitly. A rule that checks and writes (`admitCommit`,
`Carry.admitEntry`, `Deposit.admitNonce`, `consumeSet`) returns its verdict together with the
storage it leaves behind, whatever the verdict is.
-/

namespace Jamswap.Service

open Library Engine

/-! ### Words in storage -/

/-- A little-endian 64-bit value; a missing key reads as 0, a short one as if zero-padded. -/
def getU64 (st : Storage) (k : Key) : UInt64 := u64At (st.getD k) 0

def setU64 (st : Storage) (k : Key) (v : UInt64) : Storage := st.set k (u64Bytes v)

/-! ### Balances, custody, the account registry -/

def getBal (st : Storage) (asset account : UInt32) : UInt64 := getU64 st (.bal asset account)

def setBal (st : Storage) (asset account : UInt32) (v : UInt64) : Storage :=
  setU64 st (.bal asset account) v

def getCust (st : Storage) (asset : UInt32) : UInt64 := getU64 st (.cust asset)

def setCust (st : Storage) (asset : UInt32) (v : UInt64) : Storage := setU64 st (.cust asset) v

def pubkeyOf (st : Storage) (handle : UInt32) : Option Bytes32 :=
  (st.get (.pk handle)).bind fun v ↦
    if 32 ≤ v.length then some (FixedBytes.ofBytes 32 (slice v 0 32)) else none

/-- The first 32-bit word of a value that has one. -/
def getU32? (st : Storage) (k : Key) : Option UInt32 :=
  ((st.get k).filter fun v ↦ 4 ≤ v.length).map fun v ↦ u32At v 0

def handleOf (st : Storage) (pubkey : Bytes32) : Option UInt32 := getU32? st (.hkey pubkey)

def getNonce (st : Storage) (handle : UInt32) : UInt64 := getU64 st (.nc handle)

def setNonce (st : Storage) (handle : UInt32) (v : UInt64) : Storage := setU64 st (.nc handle) v

/-- Assign a handle to a fresh key; a registered key keeps its handle. -/
def registerKey (st : Storage) (pubkey : Bytes32) : Storage × UInt32 :=
  match handleOf st pubkey with
  | some h => (st, h)
  | none =>
    let next := (getU32? st .nexthandle).getD 1
    let st := st.set (.pk next) pubkey.val
    let st := st.set (.hkey pubkey) (u32Bytes next)
    let st := st.set .nexthandle (u32Bytes (satAdd32 next 1))
    (st, next)

/-- The (base, quote) a market was listed with, if any. -/
def marketAssets (st : Storage) (market : UInt32) : Option (UInt32 × UInt32) :=
  (st.get (.mkt market)).bind fun v ↦
    if 8 ≤ v.length then some (u32At v 0, u32At v 4) else none

/-! ### Replay floors -/

/-- Admit an owner-signed sealed commit at `seq`: only above the account's commit floor, which
then rises to it. -/
def admitCommit (st : Storage) (account : UInt32) (seq : UInt64) : Bool × Storage :=
  if seq ≤ getU64 st (.sc account) then (false, st)
  else (true, setU64 st (.sc account) seq)

/-- The running floor of an account inside a round: the last admitted seq, else the stored one. -/
def runningFloor (st : Storage) (floors : List (UInt32 × UInt64)) (account : UInt32) : UInt64 :=
  match floors.find? fun f ↦ f.1 == account with
  | some f => f.2
  | none => getU64 st (.sq account)

/-- Raise the account's running floor, adding an entry when it has none. -/
def raiseRunning : List (UInt32 × UInt64) → UInt32 → UInt64 → List (UInt32 × UInt64)
  | [], account, seq => [(account, seq)]
  | f :: floors, account, seq =>
    if f.1 = account then (f.1, seq) :: floors else f :: raiseRunning floors account seq

/-- Is a market order's executed price within `bandPct` percent of the last price? -/
def withinBand (price : UInt32) (lastPrice : UInt64) (bandPct : ℕ) : Bool :=
  decide (lastPrice ≠ 0) &&
    !(decide (price.toNat * 100 < lastPrice.toNat * (100 - bandPct)) ||
      decide (lastPrice.toNat * (100 + bandPct) < price.toNat * 100))

def checkBinding (st : Storage) (lastPrice : UInt64) (bandPct : ℕ)
    (floors : List (UInt32 × UInt64)) (b : Binding) : Option (List (UInt32 × UInt64)) :=
  if pubkeyOf st b.account ≠ some b.pubkey then none
  else if b.seq ≤ runningFloor st floors b.account then none
  else if hasFlag b.flags flagMarket && !withinBand b.price lastPrice bandPct then none
  else some (raiseRunning floors b.account b.seq)

/-- The state-side check of a round's bindings: the floors to commit, or `none`. -/
def checkBindings (bindings : List Binding) (st : Storage) (lastPrice : UInt64) (bandPct : ℕ) :
    Option (List (UInt32 × UInt64)) :=
  bindings.foldlM (checkBinding st lastPrice bandPct) []

def raiseOrderFloors (st : Storage) (floors : List (UInt32 × UInt64)) : Storage :=
  floors.foldl (fun st f ↦ setU64 st (.sq f.1) f.2) st

/-! ### Carry credits -/

namespace Carry

/-- A set entry: id(32) ‖ account(4). -/
def entryLen : ℕ := 36

def credits (st : Storage) (market account : UInt32) : UInt32 :=
  (getU32? st (.cw market account)).getD 0

def setCredits (st : Storage) (market account n : UInt32) : Storage :=
  st.set (.cw market account) (u32Bytes n)

/-- One credit per entry of a settling round's carry list. -/
def mint (st : Storage) (market : UInt32) (carry : Bytes) : Storage :=
  (records 4 carry).foldl (fun st a ↦
    let account := u32At a 0
    setCredits st market account (satAdd32 (credits st market account) 1)) st

/-- Admit a builder-posted re-seal: spend a credit and append the entry, unless there is no
credit or the entry is already in the set. -/
def admitEntry (st : Storage) (setKey : Key) (market : UInt32) (entry : Bytes) : Bool × Storage :=
  let account := u32At entry 32
  let cw := credits st market account
  if cw = 0 then (false, st)
  else
    let set := st.getD setKey
    if (records entryLen set).any fun e ↦ e == entry then (false, st)
    else
      let st := setCredits st market account (cw - 1)
      (true, st.set setKey (set ++ entry))

end Carry

/-! ### Deposit idempotency -/

structure Deposit where
  account : UInt32
  asset : UInt32
  amount : UInt64
  nonce : UInt64
  deriving DecidableEq

namespace Deposit

/-- `[tag][account][asset][amount][nonce]`. -/
def depositLen : ℕ := 1 + 4 + 4 + 8 + 8

/-- Recent nonces remembered above the floor. -/
def window : ℕ := 16

def decode (b : Bytes) : Option Deposit :=
  if b.length ≠ depositLen then none
  else some ⟨u32At b 1, u32At b 5, u64At b 9, u64At b 17⟩

/-- Admit a deposit nonce above the account's floor and not in its window; the window forgets its
smallest nonce into the floor once it is full. -/
def admitNonce (st : Storage) (account : UInt32) (nonce : UInt64) : Bool × Storage :=
  let v := st.getD (.dn account)
  let floor := if 8 ≤ v.length then u64At v 0 else 0
  if nonce ≤ floor then (false, st)
  else
    let seen := (records 8 (v.drop 8)).map fun c ↦ u64At c 0
    if seen.contains nonce then (false, st)
    else
      let seen := seen.takeWhile (fun n ↦ !decide (nonce < n)) ++
        nonce :: seen.dropWhile fun n ↦ !decide (nonce < n)
      let floor := if window < seen.length then seen.headD floor else floor
      let seen := if window < seen.length then seen.tail else seen
      (true, st.set (.dn account) (u64Bytes floor ++ seen.flatMap u64Bytes))

end Deposit

/-! ### Round identity and landed markers -/

/-- The id of a round: the hash of a domain tag and its whole work-item payload. -/
def roundId (P : Primitives) (payload : Bytes) : Bytes32 :=
  P.blake2s (ascii "jamswap:v1:round" ++ payload)

def landedTtlSlots : UInt32 := 600

/-- Expired markers reaped per accepted round. -/
def gcSteps : ℕ := 4

/-- The slot a round landed in, if it is marked. -/
def landedSlot (st : Storage) (rid : Bytes32) : Option UInt32 := getU32? st (.rl rid)

/-- Walk the landed queue from its head, at most `steps` entries, dropping those whose time is up;
returns the new head. -/
def reapLanded (slot : UInt32) (tail : UInt64) : ℕ → UInt64 → Storage → UInt64 × Storage
  | 0, head, st => (head, st)
  | steps + 1, head, st =>
    if head < tail then
      match (st.get (.rlq head)).filter fun e ↦ 36 ≤ e.length with
      | some e =>
        let landed := u32At e 32
        if slot < satAdd32 landed landedTtlSlots then (head, st)
        else
          let old := FixedBytes.ofBytes 32 (slice e 0 32)
          let st := if landedSlot st old = some landed then st.del (.rl old) else st
          reapLanded slot tail steps (head + 1) (st.del (.rlq head))
      | none => reapLanded slot tail steps (head + 1) (st.del (.rlq head))
    else (head, st)

/-- File an accepted round as landed at `slot`. -/
def markLanded (st : Storage) (rid : Bytes32) (slot : UInt32) : Storage :=
  let bounds : UInt64 × UInt64 := match (st.get .rlh).filter fun v ↦ 16 ≤ v.length with
    | some v => (u64At v 0, u64At v 8)
    | none => (0, 0)
  let tail := bounds.2
  let reaped := reapLanded slot tail gcSteps bounds.1 st
  let st := reaped.2.set (.rl rid) (u32Bytes slot)
  let st := st.set (.rlq tail) (rid.val ++ u32Bytes slot)
  st.set .rlh (u64Bytes reaped.1 ++ u64Bytes (tail + 1))

/-! ### Commit sets and their age index -/

/-- Drop, for each target, the first entry whose leading `key` bytes equal it. -/
def removeFirstMatch (stored targets : Bytes) (stride key : ℕ) : Bytes :=
  if stride = 0 ∨ key = 0 ∨ stride < key then stored
  else
    ((records key targets).foldl (fun entries t ↦ entries.eraseP fun e ↦ e.take key == t)
      (records stride stored)).flatten

/-- Split an age index at slot `now` into the entries kept and the keys of those reaped; an entry
is dead in the slot it expires. -/
def reapExpired (index : Bytes) (now : UInt32) (entry key : ℕ) : Bytes × Bytes :=
  if entry = 0 ∨ entry < key + 4 then (index, [])
  else
    let entries := records entry index
    ((entries.filter fun e ↦ !decide (u32At e key ≤ now)).flatten,
      (entries.filter fun e ↦ decide (u32At e key ≤ now)).flatMap fun e ↦ e.take key)

def setEntryLen : ℕ := Carry.entryLen

def cageEntryLen : ℕ := setEntryLen + 4

def commitTtlSlots : UInt32 := 3600

/-- Claim a distinct stored entry for every consumed one and remove those entries, or refuse. -/
def consumeSet (st : Storage) (key : Key) (consumed : Bytes) : Bool × Storage :=
  match consume (records setEntryLen (st.getD key)) (records setEntryLen consumed) with
  | none => (false, st)
  | some rest => (true, st.set key rest.flatten)

/-- Index a commitment with its expiry slot. -/
def cageAdd (st : Storage) (market : UInt32) (cid : Bytes) (account slot : UInt32) : Storage :=
  st.set (.cage market) (st.getD (.cage market) ++ cid ++ u32Bytes account ++
    u32Bytes (satAdd32 slot commitTtlSlots))

/-- Keep the age index in step with the consumed commitments. -/
def cagePurge (st : Storage) (market : UInt32) (consumed : Bytes) : Storage :=
  st.set (.cage market)
    (removeFirstMatch (st.getD (.cage market)) consumed cageEntryLen setEntryLen)

/-- Reap a market's expired commitments from both the index and the set. -/
def gcCommits (st : Storage) (market slot : UInt32) : Storage :=
  let split := reapExpired (st.getD (.cage market)) slot cageEntryLen setEntryLen
  if split.2.isEmpty then st
  else
    let st := st.set (.cage market) split.1
    st.set (.commits market)
      (removeFirstMatch (st.getD (.commits market)) split.2 setEntryLen setEntryLen)

/-- A set entry: the id's first 32 bytes and the account. -/
def carryEntry (id : Bytes) (account : UInt32) : Bytes := slice id 0 32 ++ u32Bytes account

end Jamswap.Service
