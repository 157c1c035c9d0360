import Jamswap.Library.Access
import Jamswap.Service.Accumulate

/-!
# The state rules with their indexing

The functions of `StateRules`, written with the accesses the source makes: every index, every range
and every copy between slices is one that may fault, and the loops over flags and positions are the
source's loops. For each function, whatever the storage holds, the accesses stay inside their
buffers and the value is that of the total function (`…_eq`). Offsets are natural numbers: they are
sums of a buffer's length and products of 8, 16 and 32-bit counts with entry sizes, which a 64-bit
`usize` holds.
-/

namespace Jamswap.Service.Indexed

open Library Library.Access Engine
open Library.Parse (Runs)

/-! ### Words -/

/-- The first eight bytes of `b`, or all of them, copied into a zeroed array. -/
def leU64 (b : Bytes) : Access UInt64 := do
  let n := min 8 b.length
  let x ← copy (List.replicate 8 0) 0 n (← range b 0 n)
  .ok (UInt64.ofNat (leValue x))

/-- `u64_at`, as deposits and landed markers read it. -/
def u64Array (b : Bytes) (off : ℕ) : Access UInt64 := do
  let x ← array 8 (← range b off (off + 8))
  .ok (UInt64.ofNat (leValue x.val))

theorem leValue_append_zeros (b : Bytes) (n : ℕ) :
    leValue (b ++ List.replicate n 0) = leValue b := by
  induction b with
  | nil =>
    induction n with
    | zero => rfl
    | succ n ih =>
      rw [List.nil_append] at ih ⊢
      rw [List.replicate_succ, leValue_cons, ih]
      rfl
  | cons x b ih => rw [List.cons_append, leValue_cons, leValue_cons, ih]

theorem leU64_eq (b : Bytes) : leU64 b = .ok (u64At b 0) := by
  have hn : (slice b 0 (min 8 b.length)).length = min 8 b.length - 0 :=
    length_slice b 0 _ (Nat.min_le_right _ _)
  have hslice : slice b 0 (min 8 b.length) = slice b 0 (0 + 8) := by
    simp only [slice, List.drop_zero, Nat.sub_zero, Nat.zero_add, List.take_eq_take_iff]
    omega
  simp only [leU64]
  rw [range_eq (Nat.zero_le _) (Nat.min_le_right _ _), ok_bind,
    copy_eq (Nat.zero_le _) (by simp) hn, ok_bind, List.take_zero, List.nil_append,
    List.drop_replicate, leValue_append_zeros, hslice]
  rfl

theorem u64Array_eq {b : Bytes} {off : ℕ} (h : off + 8 ≤ b.length) :
    u64Array b off = .ok (u64At b off) := by
  have hlen : (slice b off (off + 8)).length = 8 := by
    rw [length_slice b _ _ h]
    omega
  rw [u64Array, range_eq (by omega) h, ok_bind, array_eq hlen, ok_bind,
    FixedBytes.val_ofBytes hlen]
  rfl

/-- `get_storage(..).map(|v| le_u64(&v)).unwrap_or(0)`. -/
def getU64 (st : Storage) (k : Key) : Access UInt64 :=
  match st.get k with
  | some v => leU64 v
  | none => .ok 0

variable (st : Storage)

theorem getU64_eq (k : Key) : getU64 st k = .ok (Service.getU64 st k) := by
  rw [getU64, Service.getU64, Storage.getD, Store.read, ← Storage.get]
  cases st.get k with
  | some v => exact leU64_eq v
  | none => rfl

/-- The first word of a value that is long enough. -/
def getU32 (st : Storage) (k : Key) : Access (Option UInt32) :=
  match (st.get k).filter fun v ↦ 4 ≤ v.length with
  | some v => do
    let x ← word32 v 0
    .ok (some x)
  | none => .ok none

theorem getU32_eq (k : Key) : getU32 st k = .ok (getU32? st k) := by
  rw [getU32, getU32?]
  cases hv : (st.get k).filter fun v ↦ 4 ≤ v.length with
  | none => rfl
  | some v =>
    have hlen := (Option.filter_eq_some_iff.mp hv).2
    simp only
    rw [word32_eq (by simpa using hlen)]
    rfl

/-! ### The account registry, markets -/

def pubkeyOf (st : Storage) (handle : UInt32) : Access (Option Bytes32) :=
  match st.get (.pk handle) with
  | some v =>
    if 32 ≤ v.length then do
      let a ← array 32 (← range v 0 32)
      .ok (some a)
    else .ok none
  | none => .ok none

theorem pubkeyOf_eq (handle : UInt32) : pubkeyOf st handle = .ok (Service.pubkeyOf st handle) := by
  rw [pubkeyOf, Service.pubkeyOf]
  cases st.get (.pk handle) with
  | none => rfl
  | some v =>
    simp only [Option.bind_some]
    split_ifs with hlen
    · have hslice : (slice v 0 32).length = 32 := length_slice v 0 32 hlen
      rw [range_eq (by decide) hlen, ok_bind, array_eq hslice, ok_bind]
    · rfl

def handleOf (st : Storage) (pubkey : Bytes32) : Access (Option UInt32) := getU32 st (.hkey pubkey)

def registerKey (st : Storage) (pubkey : Bytes32) : Access (Storage × UInt32) := do
  match ← handleOf st pubkey with
  | some h => .ok (st, h)
  | none =>
    let next := (← getU32 st .nexthandle).getD 1
    let st := st.set (.pk next) pubkey.val
    let st := st.set (.hkey pubkey) (u32Bytes next)
    let st := st.set .nexthandle (u32Bytes (satAdd32 next 1))
    .ok (st, next)

theorem registerKey_eq (pubkey : Bytes32) :
    registerKey st pubkey = .ok (Service.registerKey st pubkey) := by
  rw [registerKey, handleOf, getU32_eq, ok_bind, getU32_eq, Service.registerKey,
    Service.handleOf]
  cases getU32? st (.hkey pubkey) with
  | some h => rfl
  | none => rfl

def marketAssets (st : Storage) (market : UInt32) : Access (Option (UInt32 × UInt32)) :=
  match st.get (.mkt market) with
  | some v =>
    if 8 ≤ v.length then do
      let base ← word32 v 0
      let quote ← word32 v 4
      .ok (some (base, quote))
    else .ok none
  | none => .ok none

theorem marketAssets_eq (market : UInt32) :
    marketAssets st market = .ok (Service.marketAssets st market) := by
  rw [marketAssets, Service.marketAssets]
  cases st.get (.mkt market) with
  | none => rfl
  | some v =>
    simp only [Option.bind_some]
    split_ifs with hlen
    · rw [word32_eq (by omega), ok_bind, word32_eq (by omega), ok_bind]
    · rfl

/-! ### Replay floors -/

def admitCommit (st : Storage) (account : UInt32) (seq : UInt64) : Access (Bool × Storage) := do
  let floor ← getU64 st (.sc account)
  if seq ≤ floor then .ok (false, st) else .ok (true, setU64 st (.sc account) seq)

theorem admitCommit_eq (account : UInt32) (seq : UInt64) :
    admitCommit st account seq = .ok (Service.admitCommit st account seq) := by
  rw [admitCommit, getU64_eq, ok_bind, Service.admitCommit]
  split_ifs
  · rfl
  · rfl

/-- The position of the account's running floor, and the floors with one added if it had none. -/
def floorPosition (st : Storage) (floors : List (UInt32 × UInt64)) (account : UInt32) :
    Access (ℕ × List (UInt32 × UInt64)) :=
  match floors.findIdx? fun f ↦ f.1 == account with
  | some i => .ok (i, floors)
  | none => do
    let floor ← getU64 st (.sq account)
    .ok ((floors ++ [(account, floor)]).length - 1, floors ++ [(account, floor)])

def checkBinding (st : Storage) (lastPrice : UInt64) (bandPct : ℕ)
    (floors : List (UInt32 × UInt64)) (b : Binding) : Parse (List (UInt32 × UInt64)) := do
  let key ← OptionT.mk (pubkeyOf st b.account)
  if key ≠ b.pubkey then failure
  else
    let at' ← Parse.access (floorPosition st floors b.account)
    let running ← Parse.access (index at'.2 at'.1)
    if b.seq ≤ running.2 then failure
    else
      let raised ← Parse.access (assign at'.2 at'.1 (running.1, b.seq))
      if hasFlag b.flags flagMarket && !withinBand b.price lastPrice bandPct then failure
      else pure raised

def checkBindings (bindings : List Binding) (st : Storage) (lastPrice : UInt64) (bandPct : ℕ) :
    Parse (List (UInt32 × UInt64)) :=
  bindings.foldlM (checkBinding st lastPrice bandPct) []

/-- The position found holds the running floor, and writing there raises it. -/
theorem floorPosition_eq (floors : List (UInt32 × UInt64)) (account : UInt32) (seq : UInt64) :
    ∃ i floors', floorPosition st floors account = .ok (i, floors') ∧
      index floors' i = .ok (account, runningFloor st floors account) ∧
      assign floors' i (account, seq) = .ok (raiseRunning floors account seq) := by
  induction floors with
  | nil =>
    refine ⟨0, [(account, Service.getU64 st (.sq account))], ?_, rfl, rfl⟩
    rw [floorPosition, List.findIdx?_nil]
    simp only
    rw [getU64_eq, ok_bind]
    rfl
  | cons f floors ih =>
    by_cases hf : f.1 = account
    · refine ⟨0, f :: floors, ?_, ?_, ?_⟩
      · rw [floorPosition, List.findIdx?_cons, if_pos (by simpa using hf)]
      · have hrunning : runningFloor st (f :: floors) account = f.2 := by
          rw [runningFloor, List.find?_cons_of_pos (by simpa using hf)]
        rw [hrunning, ← hf]
        rfl
      · rw [raiseRunning, if_pos hf, hf]
        rfl
    · obtain ⟨i, floors', hpos, hindex, hassign⟩ := ih
      have hne : ¬ (f.1 == account) = true := by simpa using hf
      refine ⟨i + 1, f :: floors', ?_, ?_, ?_⟩
      · rw [floorPosition, List.findIdx?_cons, if_neg hne]
        rw [floorPosition] at hpos
        cases hfound : floors.findIdx? fun f ↦ f.1 == account with
        | some j =>
          rw [hfound] at hpos
          cases hpos
          rfl
        | none =>
          rw [hfound] at hpos
          simp only [Option.map_none] at hpos ⊢
          rw [getU64_eq, ok_bind] at hpos ⊢
          cases hpos
          simp
      · have hrunning : runningFloor st (f :: floors) account = runningFloor st floors account := by
          simp only [runningFloor, List.find?_cons, beq_eq_false_iff_ne.mpr hf]
        rw [hrunning]
        exact index_cons f hindex
      · rw [raiseRunning, if_neg hf]
        unfold assign at hassign ⊢
        split_ifs at hassign with hi
        rw [if_pos (by simpa using hi), List.set_cons_succ, Except.ok.inj hassign]

theorem checkBinding_runs (lastPrice : UInt64) (bandPct : ℕ) (floors : List (UInt32 × UInt64))
    (b : Binding) :
    Runs (checkBinding st lastPrice bandPct floors b)
      (Service.checkBinding st lastPrice bandPct floors b) := by
  have hkey : Runs (OptionT.mk (pubkeyOf st b.account)) (Service.pubkeyOf st b.account) :=
    pubkeyOf_eq st b.account
  obtain ⟨i, floors', hpos, hindex, hassign⟩ := floorPosition_eq st floors b.account b.seq
  have hrest : ∀ key, Service.pubkeyOf st b.account = some key →
      Service.checkBinding st lastPrice bandPct floors b =
        if key ≠ b.pubkey then none
        else if b.seq ≤ runningFloor st floors b.account then none
        else if hasFlag b.flags flagMarket && !withinBand b.price lastPrice bandPct then none
        else some (raiseRunning floors b.account b.seq) := by
    intro key hregistered
    simp only [Service.checkBinding, hregistered, ne_eq, Option.some.injEq]
  cases hregistered : Service.pubkeyOf st b.account with
  | none =>
    have hnone : Service.checkBinding st lastPrice bandPct floors b = none := by
      rw [Service.checkBinding, hregistered, if_pos (by simp)]
    rw [hnone, checkBinding]
    rw [hregistered] at hkey
    exact hkey.bind (g := fun _ ↦ none) fun key hnone ↦ by cases hnone
  | some key =>
    rw [hrest key hregistered, checkBinding]
    rw [hregistered] at hkey
    refine hkey.bind (g := fun key ↦ if key ≠ b.pubkey then none
        else if b.seq ≤ runningFloor st floors b.account then none
        else if hasFlag b.flags flagMarket && !withinBand b.price lastPrice bandPct then none
        else some (raiseRunning floors b.account b.seq)) fun key' _ ↦ ?_
    refine Runs.ite (fun _ ↦ Runs.fail) fun _ ↦ ?_
    refine Runs.access hpos (Runs.access hindex ?_)
    refine Runs.ite (fun _ ↦ Runs.fail) fun _ ↦ ?_
    refine Runs.access hassign ?_
    exact Runs.ite (fun _ ↦ Runs.fail) fun _ ↦ Runs.pure _

theorem checkBindings_runs (bindings : List Binding) (st : Storage) (lastPrice : UInt64)
    (bandPct : ℕ) :
    Runs (checkBindings bindings st lastPrice bandPct)
      (Service.checkBindings bindings st lastPrice bandPct) :=
  (Runs.foldlM (I := fun _ ↦ True) (fun floors _ b _ ↦
    ⟨checkBinding_runs st lastPrice bandPct floors b, fun _ _ ↦ trivial⟩) trivial).1

/-! ### Carry credits -/

def credits (st : Storage) (market account : UInt32) : Access UInt32 := do
  .ok ((← getU32 st (.cw market account)).getD 0)

theorem credits_eq (market account : UInt32) :
    credits st market account = .ok (Carry.credits st market account) := by
  rw [credits, getU32_eq, ok_bind, Carry.credits]

def mint (st : Storage) (market : UInt32) (carry : Bytes) : Access Storage :=
  (records 4 carry).foldlM (fun st a ↦ do
    let account ← word32 a 0
    let n ← credits st market account
    .ok (Carry.setCredits st market account (satAdd32 n 1))) st

theorem mint_eq (market : UInt32) (carry : Bytes) :
    mint st market carry = .ok (Carry.mint st market carry) := by
  refine foldlM_eq (fun st a ha ↦ ?_) st
  have hlen := length_of_mem_records ha
  rw [word32_eq (by omega), ok_bind, credits_eq, ok_bind]

def carryEntry (id : Bytes) (account : UInt32) : Access Bytes := do
  twoParts setEntryLen 32 (← range id 0 32) (u32Bytes account)

theorem carryEntry_eq {id : Bytes} (h : 32 ≤ id.length) (account : UInt32) :
    carryEntry id account = .ok (Service.carryEntry id account) := by
  rw [carryEntry, range_eq (by decide) h, ok_bind,
    twoParts_eq (length_slice id 0 32 h) (by rw [length_u32Bytes]; rfl)]
  rfl

def admitEntry (st : Storage) (setKey : Key) (market : UInt32) (entry : Bytes) :
    Access (Bool × Storage) := do
  let account ← word32 entry 32
  let cw ← credits st market account
  if cw = 0 then .ok (false, st)
  else
    let set := st.getD setKey
    if (records Carry.entryLen set).any fun e ↦ e == entry then .ok (false, st)
    else
      let st := Carry.setCredits st market account (cw - 1)
      .ok (true, st.set setKey (set ++ entry))

theorem admitEntry_eq (setKey : Key) (market : UInt32) {entry : Bytes}
    (h : entry.length = setEntryLen) :
    admitEntry st setKey market entry = .ok (Carry.admitEntry st setKey market entry) := by
  have hlen : 32 + 4 ≤ entry.length := by rw [h]; decide
  rw [admitEntry, word32_eq hlen, ok_bind, credits_eq, ok_bind]
  simp only [Carry.admitEntry]
  split_ifs
  · rfl
  · rfl
  · rfl

/-! ### Deposits -/

def decodeDeposit (b : Bytes) : Parse Deposit := do
  if b.length ≠ Deposit.depositLen then failure
  else
    let account ← Parse.access (word32 b 1)
    let asset ← Parse.access (word32 b 5)
    let amount ← Parse.access (u64Array b 9)
    let nonce ← Parse.access (u64Array b 17)
    pure ⟨account, asset, amount, nonce⟩

theorem decodeDeposit_runs (b : Bytes) : Runs (decodeDeposit b) (Deposit.decode b) := by
  refine Runs.ite (fun _ ↦ Runs.fail) fun hlen ↦ ?_
  have hb : b.length = 25 := not_not.mp hlen
  refine Runs.access (word32_eq (by omega)) (Runs.access (word32_eq (by omega)) ?_)
  refine Runs.access (u64Array_eq (by omega)) (Runs.access (u64Array_eq (by omega)) ?_)
  exact Runs.pure _

/-- The floor at the front of a deposit record. -/
def recordFloor (v : Bytes) : Access UInt64 := if 8 ≤ v.length then u64Array v 0 else .ok 0

theorem recordFloor_eq (v : Bytes) :
    recordFloor v = .ok (if 8 ≤ v.length then u64At v 0 else 0) := by
  rw [recordFloor]
  split_ifs with h
  · exact u64Array_eq (by omega)
  · rfl

def admitNonce (st : Storage) (account : UInt32) (nonce : UInt64) : Access (Bool × Storage) := do
  let v := st.getD (.dn account)
  let floor ← recordFloor v
  if nonce ≤ floor then .ok (false, st)
  else
    let window ← (records 8 ((suffix? v 8).getD [])).mapM fun c ↦ u64Array c 0
    if window.contains nonce then .ok (false, st)
    else
      let pos := (window.findIdx? fun n ↦ decide (nonce < n)).getD window.length
      let window ← insertAt window pos nonce
      if Deposit.window < window.length then
        let evicted ← removeFirst window
        .ok (true, st.set (.dn account) (u64Bytes evicted.1 ++ evicted.2.flatMap u64Bytes))
      else .ok (true, st.set (.dn account) (u64Bytes floor ++ window.flatMap u64Bytes))

/-- The suffix a record is read from is empty when the record is short. -/
theorem suffix?_getD (v : Bytes) (i : ℕ) : (suffix? v i).getD [] = v.drop i := by
  unfold suffix?
  split_ifs with h
  · rfl
  · rw [List.drop_eq_nil_of_le (by omega)]
    rfl

/-- Splitting at the first position with `p` is splitting where `p` first holds. -/
theorem findIdx?_getD_length {α : Type} (p : α → Bool) (xs : List α) :
    (xs.findIdx? p).getD xs.length = xs.findIdx p := by
  rw [List.findIdx?_eq_guard_findIdx_lt, Option.guard]
  split_ifs with hlt
  · rfl
  · have hle : xs.findIdx p ≤ xs.length := List.findIdx_le_length
    simp only [decide_eq_true_eq, Nat.not_lt] at hlt
    exact (Nat.le_antisymm hle hlt).symm

theorem admitNonce_eq (account : UInt32) (nonce : UInt64) :
    admitNonce st account nonce = .ok (Deposit.admitNonce st account nonce) := by
  have hwindow : ∀ b : Bytes, (records 8 b).mapM (fun c ↦ u64Array c 0) =
      .ok ((records 8 b).map fun c ↦ u64At c 0) := by
    refine fun b ↦ mapM_eq fun c hc ↦ u64Array_eq ?_
    rw [length_of_mem_records hc]
  have hsplit : ∀ window : List UInt64,
      window.take (window.findIdx fun n ↦ decide (nonce < n)) ++
          nonce :: window.drop (window.findIdx fun n ↦ decide (nonce < n)) =
        window.takeWhile (fun n ↦ !decide (nonce < n)) ++
          nonce :: window.dropWhile fun n ↦ !decide (nonce < n) := by
    intro window
    rw [List.takeWhile_eq_take_findIdx_not, List.dropWhile_eq_drop_findIdx_not]
    simp only [Bool.not_not]
  simp only [admitNonce, Deposit.admitNonce, recordFloor_eq, ok_bind, suffix?_getD, hwindow,
    findIdx?_getD_length, insertAt_eq List.findIdx_le_length, hsplit]
  generalize ((records 8 ((st.getD (.dn account)).drop 8)).map fun c ↦ u64At c 0) = seen
  generalize (if 8 ≤ (st.getD (.dn account)).length then u64At (st.getD (.dn account)) 0
    else 0) = floor
  -- what is evicted is the head, which is there
  have hcons : ∀ joined : List UInt64, Deposit.window < joined.length →
      removeFirst joined = .ok (joined.headD floor, joined.tail) := by
    intro joined hfull
    cases joined with
    | nil => exact absurd hfull (by decide)
    | cons x rest => rfl
  split_ifs with hold hseen hfull
  · rfl
  · rfl
  · rw [hcons _ hfull, ok_bind]
  · rfl

/-! ### Landed markers -/

def landedKey (rid : Bytes32) : Access Bytes := twoParts 34 2 (ascii "rl") rid.val

def queueKey (n : UInt64) : Access Bytes := twoParts 11 3 (ascii "rlq") (u64Bytes n)

theorem landedKey_eq (rid : Bytes32) : landedKey rid = .ok (Key.bytes (.rl rid)) :=
  twoParts_eq (by decide) (by rw [FixedBytes.length_val])

theorem queueKey_eq (n : UInt64) : queueKey n = .ok (Key.bytes (.rlq n)) :=
  twoParts_eq (by decide) (by rw [length_u64Bytes])

def landedSlot (st : Storage) (rid : Bytes32) : Access (Option UInt32) := do
  let k ← landedKey rid
  match (st.lookup k).filter fun v ↦ 4 ≤ v.length with
  | some v => do
    let slot ← word32 v 0
    .ok (some slot)
  | none => .ok none

theorem landedSlot_eq (rid : Bytes32) : landedSlot st rid = .ok (Service.landedSlot st rid) := by
  rw [landedSlot, landedKey_eq, ok_bind]
  exact getU32_eq st (.rl rid)

/-- The reaping loop of `mark_landed`, `steps` entries at most. -/
def reapLanded (slot : UInt32) (tail : UInt64) :
    ℕ → UInt64 → Storage → Access (UInt64 × Storage)
  | 0, head, st => .ok (head, st)
  | steps + 1, head, st =>
    if head < tail then do
      let qk ← queueKey head
      match (st.lookup qk).filter fun e ↦ 36 ≤ e.length with
      | some e =>
        let landed ← word32 e 32
        if slot < satAdd32 landed landedTtlSlots then .ok (head, st)
        else
          let old ← array 32 (← range e 0 32)
          let marked ← landedSlot st old
          let k ← landedKey old
          let st := if marked = some landed then st.remove k else st
          reapLanded slot tail steps (head + 1) (st.remove qk)
      | none => reapLanded slot tail steps (head + 1) (st.remove qk)
    else .ok (head, st)

theorem reapLanded_eq (slot : UInt32) (tail : UInt64) (steps : ℕ) (head : UInt64) (st : Storage) :
    reapLanded slot tail steps head st = .ok (Service.reapLanded slot tail steps head st) := by
  induction steps generalizing head st with
  | zero => rfl
  | succ steps ih =>
    rw [reapLanded, Service.reapLanded]
    split_ifs with hhead
    · rw [queueKey_eq, ok_bind, ← Storage.get]
      cases hentry : (st.get (.rlq head)).filter fun e ↦ 36 ≤ e.length with
      | none => exact ih _ _
      | some e =>
        have hlen : 36 ≤ e.length := by simpa using (Option.filter_eq_some_iff.mp hentry).2
        have hold : (slice e 0 32).length = 32 := length_slice e 0 32 (by omega)
        simp only
        rw [word32_eq (by omega), ok_bind]
        by_cases hlive : slot < satAdd32 (u32At e 32) landedTtlSlots
        · rw [if_pos hlive, if_pos hlive]
        · rw [if_neg hlive, if_neg hlive, range_eq (by decide) (by omega), ok_bind, array_eq hold,
            ok_bind, landedSlot_eq, ok_bind, landedKey_eq, ok_bind]
          exact ih _ _
    · rfl

/-- Head and tail of the landed queue. -/
def queueBounds (st : Storage) : Access (UInt64 × UInt64) :=
  match (st.get .rlh).filter fun v ↦ 16 ≤ v.length with
  | some v => do
    let head ← u64Array v 0
    let tail ← u64Array v 8
    .ok (head, tail)
  | none => .ok (0, 0)

def markLanded (st : Storage) (rid : Bytes32) (slot : UInt32) : Access Storage := do
  let bounds ← queueBounds st
  let tail := bounds.2
  let reaped ← reapLanded slot tail gcSteps bounds.1 st
  let st := reaped.2.write (← landedKey rid) (u32Bytes slot)
  let e ← twoParts 36 32 rid.val (u32Bytes slot)
  let st := st.write (← queueKey tail) e
  let ht ← twoParts 16 8 (u64Bytes reaped.1) (u64Bytes (tail + 1))
  .ok (Storage.set st .rlh ht)

theorem queueBounds_eq :
    queueBounds st = .ok (match (st.get .rlh).filter fun v ↦ 16 ≤ v.length with
      | some v => (u64At v 0, u64At v 8)
      | none => (0, 0)) := by
  rw [queueBounds]
  cases hbounds : (st.get .rlh).filter fun v ↦ 16 ≤ v.length with
  | none => rfl
  | some v =>
    have hlen : 16 ≤ v.length := by simpa using (Option.filter_eq_some_iff.mp hbounds).2
    simp only
    rw [u64Array_eq (by omega), ok_bind, u64Array_eq (by omega), ok_bind]

theorem markLanded_eq (rid : Bytes32) (slot : UInt32) :
    markLanded st rid slot = .ok (Service.markLanded st rid slot) := by
  have hentry : twoParts 36 32 rid.val (u32Bytes slot) = .ok (rid.val ++ u32Bytes slot) :=
    twoParts_eq (FixedBytes.length_val rid) (by rw [length_u32Bytes])
  have hbounds : ∀ head tail : UInt64,
      twoParts 16 8 (u64Bytes head) (u64Bytes tail) = .ok (u64Bytes head ++ u64Bytes tail) :=
    fun head tail ↦ twoParts_eq (length_u64Bytes head) (by rw [length_u64Bytes])
  simp only [markLanded, queueBounds_eq, ok_bind, reapLanded_eq, landedKey_eq, queueKey_eq, hentry,
    hbounds]
  rfl

end Jamswap.Service.Indexed
