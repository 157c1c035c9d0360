import Jamswap.Client.DepositLanded

/-!
# The reserve keeper

The server keeps the treasury's JAMKB at what the service's footprint calls for, with deposits that
the chain may drop, delay or take twice. It watches one top-up at a time, resends it unchanged, and
looks at the balance again only when the chain answers that its nonce has landed. That answer may be
wrong about the past, but never about the future: what it calls landed is not credited any more
(`closed_of_landed`). So no two top-ups are ever on their way to be credited, and over every
interleaving of the keeper with the deliveries of its payloads the reserve stays within the target
(`reserve_never_above_target`).
-/

namespace Jamswap.Client

open Library Engine Service Service.Storage

/-! ### What the treasury aims to hold -/

def jamkb : UInt32 := 2

def jamkbSupply : ℕ := 1048576

/-- Atomic units per display unit. -/
def atomicScale : ℕ := 10000

/-- One JAMKB for each KB of state, rounded up. -/
def jamkbRent (footprintOctets : ℕ) : ℕ := (footprintOctets + 1023) / 1024

def reserveTarget (obligation : ℕ) (bufferKb : ℤ) : ℕ :=
  min (obligation + bufferKb.toNat) jamkbSupply

def reserveTargetAtomic (footprintOctets : ℕ) (bufferKb : ℤ) : ℕ :=
  reserveTarget (jamkbRent footprintOctets) bufferKb * atomicScale

/-- Up to the target, once the reserve is half a buffer below it. -/
def topupDue (held target : ℕ) (buffer : ℤ) : ℤ :=
  let short : ℤ := target - held
  if max 1 (buffer / 2) ≤ short then short else 0

/-! ### The keeper -/

def depositNonce (last timeNs : ℕ) : ℕ := max timeNs (last + 1)

/-- None when a number does not fit its field. -/
def depositPayload (account asset : UInt32) (amount nonce : ℕ) : Option Bytes :=
  if 0 < nonce ∧ nonce < 2 ^ 64 ∧ amount < 2 ^ 64 then
    some ([Tag.deposit.byte] ++ u32Bytes account ++ u32Bytes asset ++
      u64Bytes (UInt64.ofNat amount) ++ u64Bytes (UInt64.ofNat nonce))
  else none

/-- How a submission went. -/
inductive Sending
  | relayed
  | busy
  | failed

/-- `_topup`, and the last deposit nonce of the process. -/
structure Keeper where
  payload : Option Bytes
  nonce : Option UInt64
  sent : Option ℚ
  lastNonce : ℕ

/-- What a look of the keeper meets: the clocks, the storage when it asks for the nonce and when it
reads the balance (none where the read fails), the footprint, and how a submission goes. -/
structure Readings where
  now : ℚ
  timeNs : ℕ
  asked : Option Storage
  read : Option Storage
  footprint : ℕ
  sending : Sending

/-- What a look does: a top-up, the same one again, or nothing yet. -/
inductive Ticked
  | sent
  | resent
  | waiting

def topupResendSecs : ℚ := 60

/-- `_send_topup`: what never reached the chain is due again at the next look. -/
def Keeper.sendTopup (k : Keeper) : Sending → Keeper
  | .busy => { k with sent := none }
  | .relayed | .failed => k

/-- The second half of a look, with no top-up on its way: the keeper after it, the payload handed to
the chain, and the answer. -/
def Keeper.topUp (bufferKb : ℤ) (r : Readings) (k : Keeper) :
    Keeper × Option Bytes × Option Ticked :=
  match r.read with
  | none => (k, none, none)
  | some st =>
    let held := (getBal st jamkb feeAccount).toNat
    let target := reserveTargetAtomic r.footprint bufferKb
    let amount := topupDue held target (bufferKb * atomicScale)
    if amount = 0 then (k, none, none)
    else
      let nonce := depositNonce k.lastNonce r.timeNs
      let k := { k with lastNonce := nonce }
      match depositPayload feeAccount jamkb amount.toNat nonce with
      | none => (k, none, none)
      | some payload =>
        let k := { k with
          payload := some payload, nonce := some (UInt64.ofNat nonce), sent := some r.now }
        (k.sendTopup r.sending, some payload, some .sent)

def reserveKeeperTick (bufferKb : ℤ) (r : Readings) (k : Keeper) :
    Keeper × Option Bytes × Option Ticked :=
  match k.nonce, r.asked with
  | none, _ => k.topUp bufferKb r
  | some _, none => (k, none, none)
  | some nonce, some st =>
    if depositLanded st feeAccount nonce then
      Keeper.topUp bufferKb r { k with payload := none, nonce := none }
    else if k.sent.any fun sent ↦ r.now - sent < topupResendSecs then (k, none, some .waiting)
    else (Keeper.sendTopup { k with sent := some r.now } r.sending, k.payload, some .resent)

/-! ### Keeper and chain -/

/-- The items delivered so far, the keeper, and what it has handed to the chain. -/
structure Reserve where
  items : List Service.WorkItem
  keeper : Keeper
  submitted : List Bytes

namespace Reserve

variable (P : Primitives)

def storage (w : Reserve) : Storage := runItems P Store.empty w.items

def held (w : Reserve) : ℕ := (getBal (w.storage P) jamkb feeAccount).toNat

/-- One delivery, or one look. The chain delivers what the keeper handed to it at any time and as
often as it likes, and anything else that does not raise the reserve. A look asks for the nonce no
later than it reads the balance, and reads a footprint whose target is within the cap. -/
inductive Step (bufferKb : ℤ) (cap : ℕ) : Reserve → Reserve → Prop
  | deliver (w : Reserve) (item : Service.WorkItem)
      (hitem : item.payload.val ∈ w.submitted ∨
        held P { w with items := w.items ++ [item] } ≤ w.held P) :
      Step bufferKb cap w { w with items := w.items ++ [item] }
  | tick (w : Reserve) (r : Readings) {before : List Service.WorkItem}
      (hbefore : before <+: w.items) (hasked : ∀ st ∈ r.asked, st = runItems P Store.empty before)
      (hread : ∀ st ∈ r.read, st = w.storage P)
      (htarget : reserveTargetAtomic r.footprint bufferKb ≤ cap) :
      Step bufferKb cap w
        { w with
          keeper := (reserveKeeperTick bufferKb r w.keeper).1
          submitted := (reserveKeeperTick bufferKb r w.keeper).2.1.toList ++ w.submitted }

/-- Nothing delivered, nothing on its way. -/
def start (timeNs : ℕ) : Reserve := ⟨[], ⟨none, none, none, timeNs⟩, []⟩

end Reserve

/-! ### Nonces that are done for -/

/-- No deposit of the treasury with this nonce is admitted any more. -/
def Closed (P : Primitives) (items : List Service.WorkItem) (nonce : UInt64) : Prop :=
  (Deposit.admitNonce (runItems P Store.empty items) feeAccount nonce).1 = false

section Closed

local instance closedOrder : LinearOrder UInt64 := Deposit.wordOrder

variable {P : Primitives} {items : List Service.WorkItem} {item : Service.WorkItem}
  {nonce : UInt64}

theorem closed_of_landed (h : depositLanded (runItems P Store.empty items) feeAccount nonce) :
    Closed P items nonce := by
  rw [Closed, Deposit.admitNonce_eq, if_pos ((depositLanded_iff _ _ _).mp h).2]

/-- The nonces taken so far decide, and there will only be more of them. -/
theorem Closed.append (h : Closed P items nonce) (more : List Service.WorkItem) :
    Closed P (items ++ more) nonce := by
  by_contra hopen
  have hoffered : offered P (items ++ more) feeAccount =
      offered P items feeAccount ++ offered P more feeAccount := by
    simp [offered]
  rw [Closed, Bool.not_eq_false, admitNonce_fst_iff_pos (get_dn_runItems P _ _), hoffered] at hopen
  obtain ⟨hpos, hnew, hfew⟩ := hopen
  have hgrown := taken_suffix Deposit.window 0 (offered P items feeAccount)
    (offered P more feeAccount)
  have hadmitted := (admitNonce_fst_iff_pos (get_dn_runItems P items feeAccount)).mpr
    ⟨hpos, fun hmem ↦ hnew (hgrown.subset hmem), hgrown.sublist.countP_le.trans hfew⟩
  exact Bool.noConfusion (h.symm.trans hadmitted)

/-- A deposit closes its nonce, whether it is admitted or not. -/
theorem closed_of_deposit {d : Deposit} (hd : depositOf P item = some d)
    (haccount : d.account = feeAccount) : Closed P (items ++ [item]) d.nonce := by
  rw [Closed, runItems_concat, deliver_of_depositOf hd, haccount]
  split_ifs with hadmitted
  · have hrecord := Deposit.record_admitNonce (get_dn_runItems P items feeAccount) hadmitted
    rw [← (frame_payIn _ d).get_eq (by simp)] at hrecord
    refine Bool.eq_false_iff.mpr fun hagain ↦ ?_
    exact ((Deposit.admitNonce_fst_iff hrecord).mp hagain).2.1 List.mem_cons_self
  · exact Bool.eq_false_iff.mpr hadmitted

/-- The service reads the payload as it was packed. -/
theorem depositOf_payload {account asset : UInt32} {amount n : ℕ}
    (h : depositPayload account asset amount n = some item.payload.val) : amount < 2 ^ 64 ∧
      depositOf P item = some ⟨account, asset, UInt64.ofNat amount, UInt64.ofNat n⟩ := by
  unfold depositPayload at h
  split_ifs at h with hfits
  have hbytes := Option.some.inj h
  simp only [List.append_assoc] at hbytes
  have htag : tagOf item.payload.val = some .deposit := by rw [← hbytes]; rfl
  have hecho : refine P item.payload.val = item.payload.val := by
    have htag' : item.payload.val.head?.bind Tag.ofByte = some .deposit := htag
    simp only [refine, htag']
  have hlen : item.payload.val.length = 25 := by
    rw [← hbytes]
    simp
  have htagged : Cursor item.payload.val 0 [Tag.deposit.byte] (u32Bytes account ++
      (u32Bytes asset ++ (u64Bytes (UInt64.ofNat amount) ++ (u64Bytes (UInt64.ofNat n) ++ [])))) :=
    ⟨Nat.zero_le _, by rw [List.append_nil, ← hbytes, List.drop_zero]⟩
  have haccount := htagged.next (j := 1) (by simp)
  have hasset := haccount.next (j := 5) (by simp)
  have hamount := hasset.next (j := 9) (by simp)
  have hnonce := hamount.next (j := 17) (by simp)
  rw [depositOf, workResult, dif_pos (by rw [hecho, hlen]; decide)]
  simp only [hecho, htag, if_true, Deposit.decode, hlen, haccount.u32At_eq, hasset.u32At_eq,
    hamount.u64At_eq, hnonce.u64At_eq]
  exact ⟨hfits.2.2, rfl⟩

end Closed

namespace Reserve

variable {P : Primitives} {bufferKb : ℤ} {cap : ℕ} {w w' : Reserve}
  {item : Service.WorkItem}

/-- A top-up that is not credited any more. -/
def Spent (P : Primitives) (items : List Service.WorkItem) (p : Bytes) : Prop :=
  ∃ amount nonce, depositPayload feeAccount jamkb amount nonce = some p ∧
    Closed P items (UInt64.ofNat nonce)

/-- The reserve is within the cap, also when the one top-up that may still be credited is. -/
structure Within (P : Primitives) (cap : ℕ) (w : Reserve) : Prop where
  held : w.held P ≤ cap
  payload : ∀ p ∈ w.keeper.payload, p ∈ w.submitted
  topups : ∀ p ∈ w.submitted, Spent P w.items p ∨
    ∃ amount nonce, depositPayload feeAccount jamkb amount nonce = some p ∧
      w.keeper.nonce = some (UInt64.ofNat nonce) ∧ w.held P + amount ≤ cap

/-- Once the watched nonce is closed, every top-up is spent. -/
theorem Within.spent (h : w.Within P cap) (more : List Service.WorkItem)
    (hwatched : ∀ n ∈ w.keeper.nonce, Closed P (w.items ++ more) n) {p : Bytes}
    (hp : p ∈ w.submitted) : Spent P (w.items ++ more) p := by
  rcases h.topups p hp with ⟨a, n, hpayload, hclosed⟩ | ⟨a, n, hpayload, hnonce, -⟩
  · exact ⟨a, n, hpayload, hclosed.append more⟩
  · exact ⟨a, n, hpayload, hwatched _ hnonce⟩

/-- A top-up is credited in full at most, and not at all when its nonce is closed. -/
theorem held_of_deposit {amount nonce : UInt64}
    (h : depositOf P item = some ⟨feeAccount, jamkb, amount, nonce⟩) :
    Reserve.held P { w with items := w.items ++ [item] } ≤ w.held P + amount.toNat ∧
      (Closed P w.items nonce →
        Reserve.held P { w with items := w.items ++ [item] } = w.held P) := by
  simp only [Reserve.held, Reserve.storage, runItems_concat, deliver_of_depositOf h, Closed]
  split_ifs with hadmitted
  · have hbal : getBal (Deposit.admitNonce (runItems P Store.empty w.items) feeAccount nonce).2
        jamkb feeAccount = getBal (runItems P Store.empty w.items) jamkb feeAccount :=
      (Deposit.frame_admitNonce _ _ _).getU64_eq (by simp)
    refine ⟨?_, fun hclosed ↦ by cases hadmitted.symm.trans hclosed⟩
    rw [payIn, getBal, (frame_setCust _ _ _).getU64_eq (by simp), setBal,
      getU64_setU64_same, hbal, toNat_satAdd]
    exact min_le_left _ _
  · exact ⟨Nat.le_add_right _ _, fun _ ↦ rfl⟩

theorem Within.of_le (h : w.Within P cap)
    (hle : Reserve.held P { w with items := w.items ++ [item] } ≤ w.held P) :
    Within P cap { w with items := w.items ++ [item] } := by
  refine ⟨hle.trans h.held, h.payload, fun p hp ↦ ?_⟩
  rcases h.topups p hp with ⟨a, n, hpayload, hclosed⟩ | ⟨a, n, hpayload, hnonce, hroom⟩
  · exact Or.inl ⟨a, n, hpayload, hclosed.append _⟩
  · exact Or.inr ⟨a, n, hpayload, hnonce, (Nat.add_le_add_right hle _).trans hroom⟩

theorem Within.deliver (h : w.Within P cap) (hitem : item.payload.val ∈ w.submitted) :
    Within P cap { w with items := w.items ++ [item] } := by
  have hcredit {amount nonce : ℕ}
      (hp : depositPayload feeAccount jamkb amount nonce = some item.payload.val) :=
    held_of_deposit (w := w) (depositOf_payload (P := P) hp).2
  rcases h.topups _ hitem with ⟨amount, nonce, hp, hclosed⟩ | ⟨amount, nonce, hp, hnonce, hroom⟩
  · exact h.of_le ((hcredit hp).2 hclosed).le
  · obtain ⟨hfits, hdeposit⟩ := depositOf_payload (P := P) hp
    have hheld := (hcredit hp).1
    rw [UInt64.toNat_ofNat', Nat.mod_eq_of_lt hfits] at hheld
    refine ⟨hheld.trans hroom, h.payload, fun p hp ↦ Or.inl (h.spent _ (fun n hn ↦ ?_) hp)⟩
    cases hnonce.symm.trans hn
    exact closed_of_deposit hdeposit rfl

/-! ### A look -/

theorem sendTopup_eq (k : Keeper) (s : Sending) : ∃ sent, k.sendTopup s = { k with sent } := by
  cases s <;> exact ⟨_, rfl⟩

/-- A top-up fills the reserve up to the target and no further. -/
theorem held_add_topupDue {held target : ℕ} {buffer : ℤ} (h : topupDue held target buffer ≠ 0) :
    held + (topupDue held target buffer).toNat = target := by
  revert h
  simp only [topupDue]
  split_ifs <;> omega

theorem Within.topUp (h : w.Within P cap) (hnone : w.keeper.nonce = none) (r : Readings)
    (hread : ∀ st ∈ r.read, st = w.storage P)
    (htarget : reserveTargetAtomic r.footprint bufferKb ≤ cap) :
    Within P cap { w with
      keeper := (w.keeper.topUp bufferKb r).1
      submitted := (w.keeper.topUp bufferKb r).2.1.toList ++ w.submitted } := by
  have hspent : ∀ p ∈ w.submitted, Spent P w.items p := fun p hp ↦ by
    simpa using h.spent [] (by simp [hnone]) hp
  unfold Keeper.topUp
  cases hst : r.read with
  | none => exact h
  | some st =>
    obtain rfl := hread st hst
    dsimp only
    split_ifs with hdue
    · exact h
    split
    · exact ⟨h.held, h.payload, fun p hp ↦ Or.inl (hspent p hp)⟩
    · rename_i payload hpayload
      obtain ⟨sent, hsent⟩ := sendTopup_eq _ r.sending
      rw [hsent]
      refine ⟨h.held, ?_, ?_⟩
      · rintro p ⟨⟩
        exact List.mem_cons_self
      · rintro p (_ | ⟨_, hp⟩)
        · exact Or.inr ⟨_, _, hpayload, rfl, (held_add_topupDue hdue).le.trans htarget⟩
        · exact Or.inl (hspent p hp)

theorem Step.within (h : Step P bufferKb cap w w') (hw : w.Within P cap) : w'.Within P cap := by
  cases h with
  | deliver item hitem => exact hitem.elim hw.deliver hw.of_le
  | tick r hbefore hasked hread htarget =>
    unfold reserveKeeperTick
    cases hnonce : w.keeper.nonce with
    | none => exact hw.topUp hnonce r hread htarget
    | some nonce =>
      cases hst : r.asked with
      | none => exact hw
      | some st =>
        obtain rfl := hasked st hst
        obtain ⟨more, hmore⟩ := hbefore
        dsimp only
        split_ifs with hlanded hsoon
        · -- The answer is from before the balance was read; what had landed stays closed.
          have hclosed := (closed_of_landed hlanded).append more
          rw [hmore] at hclosed
          have hlet : Within P cap { w with
              keeper := { w.keeper with payload := none, nonce := none } } := by
            refine ⟨hw.held, nofun, fun p hp ↦ Or.inl ?_⟩
            simpa using hw.spent [] (by simpa [hnonce] using hclosed) hp
          exact hlet.topUp rfl r hread htarget
        · exact hw
        · obtain ⟨sent, hsent⟩ := sendTopup_eq _ r.sending
          rw [hsent]
          refine ⟨hw.held, fun p hp ↦ List.mem_append_right _ (hw.payload p hp), fun p hp ↦ ?_⟩
          have hstill := hw.topups p <| (List.mem_append.mp hp).elim
            (fun hagain ↦ hw.payload p (Option.mem_toList.mp hagain)) id
          rwa [hnonce] at hstill

end Reserve

/-- However the chain delays, drops or repeats the keeper's payloads, the reserve never holds more
than the largest target it has aimed at, and of the top-ups sent only those under the one nonce the
keeper watches may still be credited, which fill the reserve up to that target at most. -/
theorem reserve_never_above_target (P : Primitives) {bufferKb : ℤ} {cap timeNs : ℕ} {w : Reserve}
    (h : Relation.ReflTransGen (Reserve.Step P bufferKb cap) (Reserve.start timeNs) w) :
    w.held P ≤ cap ∧
      ∀ p ∈ w.submitted, Reserve.Spent P w.items p ∨
        ∃ amount nonce, depositPayload feeAccount jamkb amount nonce = some p ∧
          w.keeper.nonce = some (UInt64.ofNat nonce) ∧ w.held P + amount ≤ cap := by
  suffices hw : w.Within P cap from ⟨hw.held, hw.topups⟩
  induction h with
  | refl => exact ⟨Nat.zero_le _, nofun, nofun⟩
  | tail _ hstep hw => exact hstep.within hw

/-- What the keeper finds on an empty service. -/
def firstReadings : Readings := ⟨0, 0, none, some Store.empty, 0, .relayed⟩

def topupItem : Service.WorkItem :=
  ⟨0, ⟨(depositPayload feeAccount jamkb 80000 1).getD [], by decide⟩⟩

/-- The first top-up fills the reserve, and credits nothing when it lands again. -/
theorem reserve_never_above_target_twice :
    ∃ w : Reserve, w.items = [topupItem, topupItem] ∧ w.held Primitives.toy = 80000 ∧
      w.held Primitives.toy ≤ 80000 := by
  have htick : Reserve.Step Primitives.toy 8 80000 (Reserve.start 0) _ :=
    .tick _ firstReadings List.nil_prefix nofun (by rintro _ ⟨⟩; rfl) (by decide)
  have hrun := ((Relation.ReflTransGen.single htick).tail
    (.deliver _ topupItem (.inl (by decide +kernel)))).tail
    (.deliver _ topupItem (.inl (by decide +kernel)))
  exact ⟨_, rfl, by decide +kernel, (reserve_never_above_target Primitives.toy hrun).1⟩

end Jamswap.Client
