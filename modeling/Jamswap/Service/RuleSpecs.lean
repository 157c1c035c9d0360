import Jamswap.Service.RoundCodec

/-!
# What each state rule writes

For every rule of accumulate: the keys it can touch, as a frame, and the value it leaves where
later results need it. A handler's effect is then read off these lemmas, without unfolding the
rules again.
-/

namespace Jamswap.Service

open Library Engine Storage

/-! ### Families of keys -/

@[simp]
def balanceKeys : Set Key := {k | ∃ asset account, k = .bal asset account}

@[simp]
def landedKeys : Set Key := {k | (∃ rid, k = .rl rid) ∨ (∃ n, k = .rlq n) ∨ k = .rlh}

@[simp]
def orderFloorKeys : Set Key := {k | ∃ account, k = .sq account}

@[simp]
def creditKeys (market : UInt32) : Set Key := {k | ∃ account, k = .cw market account}

/-- The price and volume record of a market. -/
@[simp]
def tapeKeys (market : UInt32) : Set Key := {.lp market, .cv market}

/-- The keys of the account registry. -/
@[simp]
def registryKeys : Set Key :=
  {k | (∃ handle, k = .pk handle) ∨ (∃ pk, k = .hkey pk) ∨ k = .nexthandle}

/-! ### Words in storage -/

theorem getU64_setU64 (st : Storage) (k k' : Key) (v : UInt64) :
    getU64 (setU64 st k v) k' = if k' = k then v else getU64 st k' := by
  unfold getU64 setU64
  rw [getD_set]
  split_ifs with h
  · exact u64At_u64Bytes v
  · rfl

@[simp] theorem getU64_setU64_same (st : Storage) (k : Key) (v : UInt64) :
    getU64 (setU64 st k v) k = v := by
  rw [getU64_setU64, if_pos rfl]

variable {k : Key} {st st' : Storage} {floors : List (UInt32 × UInt64)} {account : UInt32}
  {lastPrice : UInt64} {bandPct : ℕ} {bindings : List Binding}

theorem getU64_set_ne (st : Storage) {k' : Key} (v : Bytes) (h : k' ≠ k) :
    getU64 (st.set k v) k' = getU64 st k' := by
  rw [getU64, getU64, getD_set_ne st v h]

variable {K : Set Key} {setKey key : Key} {market : UInt32} {entry consumed : Bytes}

theorem Storage.Frame.getU64_eq (h : Frame K st st') (hk : k ∉ K) : getU64 st' k = getU64 st k := by
  rw [getU64, getU64, h.getD_eq hk]

theorem Storage.Frame.getU32?_eq (h : Frame K st st') (hk : k ∉ K) :
    getU32? st' k = getU32? st k := by
  rw [getU32?, getU32?, h.get_eq hk]

/-- A four-byte value is read back whatever else the storage holds. -/
theorem getU32?_set_same (st : Storage) (k : Key) (v : UInt32) :
    getU32? (st.set k (u32Bytes v)) k = some v := by
  have hne : (u32Bytes v).isEmpty = false := by
    rw [List.isEmpty_eq_false_iff, ← List.length_pos_iff, length_u32Bytes]
    decide
  rw [getU32?, get_set, if_pos rfl, hne]
  simp

/-! ### Floors -/

theorem admitCommit_eq (st : Storage) (account : UInt32) (seq : UInt64) :
    admitCommit st account seq =
      if getU64 st (.sc account) < seq then (true, setU64 st (.sc account) seq)
      else (false, st) := by
  unfold admitCommit
  by_cases h : seq ≤ getU64 st (.sc account)
  · rw [if_pos h, if_neg (UInt64.not_lt.mpr h)]
  · rw [if_neg h, if_pos (UInt64.not_le.mp h)]

theorem frame_raiseOrderFloors (st : Storage) (floors : List (UInt32 × UInt64)) :
    Frame orderFloorKeys st (raiseOrderFloors st floors) := by
  refine frame_foldl _ floors (fun st f _ ↦ ?_) st
  exact frame_set st (u64Bytes f.2) ⟨f.1, rfl⟩

/-- The floors committed by a round, over the stored ones. -/
theorem getU64_raiseOrderFloors (hnodup : (floors.map Prod.fst).Nodup) (st : Storage)
    (account : UInt32) :
    getU64 (raiseOrderFloors st floors) (.sq account) = runningFloor st floors account := by
  induction floors generalizing st with
  | nil => rfl
  | cons f floors ih =>
    rw [List.map_cons, List.nodup_cons] at hnodup
    have hstep : raiseOrderFloors st (f :: floors) =
        raiseOrderFloors (setU64 st (.sq f.1) f.2) floors := rfl
    rw [hstep, ih hnodup.2]
    unfold runningFloor
    by_cases haccount : f.1 = account
    · subst haccount
      have hnone : (floors.find? fun g ↦ g.1 == f.1) = none := by
        refine List.find?_eq_none.mpr fun g hg heq ↦ hnodup.1 ?_
        rw [beq_iff_eq] at heq
        exact heq ▸ List.mem_map_of_mem hg
      simp [hnone]
    · have hskip : ((f :: floors).find? fun g ↦ g.1 == account) =
          floors.find? fun g ↦ g.1 == account := by
        rw [List.find?_cons_of_neg]
        simpa using haccount
      have hother : getU64 (setU64 st (.sq f.1) f.2) (.sq account) = getU64 st (.sq account) := by
        rw [getU64_setU64, if_neg]
        rintro ⟨⟩
        exact haccount rfl
      rw [hskip, hother]

/-! ### Landed markers -/

theorem frame_reapLanded (slot : UInt32) (tail : UInt64) (steps : ℕ) (head : UInt64)
    (st : Storage) : Frame landedKeys st (reapLanded slot tail steps head st).2 := by
  induction steps generalizing head st with
  | zero => exact Frame.refl _ _
  | succ steps ih =>
    have hrlq : ∀ st : Storage, Frame landedKeys st (st.del (.rlq head)) :=
      fun st ↦ frame_set st [] (Or.inr (Or.inl ⟨head, rfl⟩))
    rw [reapLanded]
    split_ifs with hhead
    · cases (st.get (.rlq head)).filter fun e ↦ 36 ≤ e.length with
      | none => exact (hrlq st).trans (ih _ _)
      | some e =>
        simp only []
        split_ifs with hlive hmark
        · exact Frame.refl _ _
        · have hrl : Frame landedKeys st (st.del (.rl (FixedBytes.ofBytes 32 (slice e 0 32)))) :=
            frame_set st [] (Or.inl ⟨_, rfl⟩)
          exact (hrl.trans (hrlq _)).trans (ih _ _)
        · exact (hrlq st).trans (ih _ _)
    · exact Frame.refl _ _

theorem frame_markLanded (st : Storage) (rid : Bytes32) (slot : UInt32) :
    Frame landedKeys st (markLanded st rid slot) := by
  simp only [markLanded]
  exact (((frame_reapLanded slot _ gcSteps _ st).set _ (Or.inl ⟨rid, rfl⟩)).set _
    (Or.inr (Or.inl ⟨_, rfl⟩))).set _ (Or.inr (Or.inr rfl))

/-- The round just filed is marked with its slot. -/
theorem landedSlot_markLanded (st : Storage) (rid : Bytes32) (slot : UInt32) :
    landedSlot (markLanded st rid slot) rid = some slot := by
  simp only [markLanded, landedSlot, getU32?]
  rw [get_set_ne _ _ (by simp), get_set_ne _ _ (by simp)]
  exact getU32?_set_same _ _ slot

theorem frame_acceptRound (st : Storage) (floors : List (UInt32 × UInt64)) (rid : Bytes32)
    (slot : UInt32) : Frame (orderFloorKeys ∪ landedKeys) st (acceptRound st floors rid slot) :=
  (frame_raiseOrderFloors st floors).seq (frame_markLanded _ rid slot)

/-! ### Bindings -/

theorem runningFloor_raiseRunning (st : Storage) (floors : List (UInt32 × UInt64))
    (account account' : UInt32) (seq : UInt64) :
    runningFloor st (raiseRunning floors account seq) account' =
      if account' = account then seq else runningFloor st floors account' := by
  induction floors with
  | nil =>
    by_cases h : account' = account
    · simp [runningFloor, raiseRunning, h]
    · simp [runningFloor, raiseRunning, h, Ne.symm h]
  | cons f floors ih =>
    rw [raiseRunning]
    by_cases hf : f.1 = account
    · rw [if_pos hf]
      by_cases h : account' = account
      · simp [runningFloor, hf, h]
      · have hne : f.1 ≠ account' := fun heq ↦ h (heq.symm.trans hf)
        simp [runningFloor, hne, h]
    · rw [if_neg hf]
      by_cases h : f.1 = account'
      · have hne : account' ≠ account := fun heq ↦ hf (h.trans heq)
        simp [runningFloor, h, hne]
      · unfold runningFloor at ih ⊢
        rw [List.find?_cons_of_neg (by simpa using h), List.find?_cons_of_neg (by simpa using h)]
        exact ih

theorem map_fst_raiseRunning (floors : List (UInt32 × UInt64)) (account : UInt32) (seq : UInt64) :
    (raiseRunning floors account seq).map Prod.fst =
      if account ∈ floors.map Prod.fst then floors.map Prod.fst
      else floors.map Prod.fst ++ [account] := by
  induction floors with
  | nil => rfl
  | cons f floors ih =>
    rw [raiseRunning]
    by_cases hf : f.1 = account
    · simp [hf]
    · rw [if_neg hf, List.map_cons, ih]
      simp only [List.map_cons, List.mem_cons, Ne.symm hf, false_or]
      split_ifs <;> rfl

theorem nodup_raiseRunning (h : (floors.map Prod.fst).Nodup) (account : UInt32) (seq : UInt64) :
    ((raiseRunning floors account seq).map Prod.fst).Nodup := by
  rw [map_fst_raiseRunning]
  split_ifs with hmem
  · exact h
  · exact List.concat_eq_append ▸ h.concat hmem

/-- What one admitted binding has passed, against the floors running before it. -/
structure BindingAdmitted (st : Storage) (lastPrice : UInt64) (bandPct : ℕ)
    (b : Binding) : Prop where
  registered : pubkeyOf st b.account = some b.pubkey
  banded : hasFlag b.flags flagMarket → withinBand b.price lastPrice bandPct

theorem checkBinding_eq_some {floors' : List (UInt32 × UInt64)} {b : Binding}
    (h : checkBinding st lastPrice bandPct floors b = some floors') :
    BindingAdmitted st lastPrice bandPct b ∧ runningFloor st floors b.account < b.seq ∧
      floors' = raiseRunning floors b.account b.seq := by
  unfold checkBinding at h
  split_ifs at h with hkey hseq hband
  refine ⟨⟨not_not.mp hkey, fun hmarket ↦ ?_⟩, UInt64.not_le.mp hseq, (Option.some.inj h).symm⟩
  simpa [hmarket] using hband

/-- The floor of an account after a run of admitted bindings. -/
def raisedFloor (bindings : List Binding) (account : UInt32) (floor : UInt64) : UInt64 :=
  bindings.foldl (fun f b ↦ if b.account = account then b.seq else f) floor

theorem raisedFloor_cons (b : Binding) (bindings : List Binding) (account : UInt32)
    (floor : UInt64) : raisedFloor (b :: bindings) account floor =
      raisedFloor bindings account (if b.account = account then b.seq else floor) := rfl

/-- An admitted run of bindings: each one passes the registry and price checks, each seq beats the
running floor of its account (the stored floor for the account's first, the previous seq for the
next), and the floors returned are the last seqs. -/
structure BindingsAdmitted (st : Storage) (lastPrice : UInt64) (bandPct : ℕ)
    (start floors : List (UInt32 × UInt64)) (bindings : List Binding) : Prop where
  each : ∀ b ∈ bindings, BindingAdmitted st lastPrice bandPct b
  above : ∀ b ∈ bindings, runningFloor st start b.account < b.seq
  increasing : bindings.Pairwise fun b b' ↦ b.account = b'.account → b.seq < b'.seq
  raised : ∀ account, runningFloor st floors account =
    raisedFloor bindings account (runningFloor st start account)
  nodup : (floors.map Prod.fst).Nodup

theorem bindingsAdmitted_of_foldlM {start : List (UInt32 × UInt64)}
    (hstart : (start.map Prod.fst).Nodup)
    (h : bindings.foldlM (checkBinding st lastPrice bandPct) start = some floors) :
    BindingsAdmitted st lastPrice bandPct start floors bindings := by
  induction bindings generalizing start with
  | nil =>
    cases h
    exact ⟨by simp, by simp, List.Pairwise.nil, fun _ ↦ rfl, hstart⟩
  | cons b bindings ih =>
    rw [List.foldlM_cons] at h
    obtain ⟨next, hnext, hrest⟩ := Option.bind_eq_some_iff.mp h
    obtain ⟨hadmitted, habove, rfl⟩ := checkBinding_eq_some hnext
    have hrun := ih (nodup_raiseRunning hstart b.account b.seq) hrest
    have hlater : ∀ b' ∈ bindings, b'.account = b.account → b.seq < b'.seq := by
      intro b' hb' haccount
      have hb'above := hrun.above b' hb'
      rwa [runningFloor_raiseRunning, if_pos haccount] at hb'above
    refine ⟨?_, ?_, ?_, ?_, hrun.nodup⟩
    · intro b' hb'
      rcases List.mem_cons.mp hb' with rfl | hmem
      · exact hadmitted
      · exact hrun.each b' hmem
    · intro b' hb'
      rcases List.mem_cons.mp hb' with rfl | hmem
      · exact habove
      · by_cases haccount : b'.account = b.account
        · rw [haccount]
          exact UInt64.lt_trans habove (hlater b' hmem haccount)
        · have hb'above := hrun.above b' hmem
          rwa [runningFloor_raiseRunning, if_neg haccount] at hb'above
    · exact List.pairwise_cons.mpr
        ⟨fun b' hb' haccount ↦ hlater b' hb' haccount.symm, hrun.increasing⟩
    · intro account
      rw [hrun.raised account, raisedFloor_cons, runningFloor_raiseRunning]
      simp only [eq_comm]

theorem bindingsAdmitted_of_checkBindings
    (h : checkBindings bindings st lastPrice bandPct = some floors) :
    BindingsAdmitted st lastPrice bandPct [] floors bindings :=
  bindingsAdmitted_of_foldlM List.nodup_nil h

/-- A raised floor is at least where it started and at least every seq of the account. -/
theorem le_raisedFloor {floor : UInt64}
    (habove : ∀ b ∈ bindings, b.account = account → floor < b.seq)
    (hincreasing : bindings.Pairwise fun b b' ↦ b.account = b'.account → b.seq < b'.seq) :
    floor ≤ raisedFloor bindings account floor ∧
      ∀ b ∈ bindings, b.account = account → b.seq ≤ raisedFloor bindings account floor := by
  induction bindings generalizing floor with
  | nil => exact ⟨UInt64.le_refl _, by simp⟩
  | cons b bindings ih =>
    rw [List.pairwise_cons] at hincreasing
    rw [raisedFloor_cons]
    by_cases haccount : b.account = account
    · rw [if_pos haccount]
      have hstart := habove b List.mem_cons_self haccount
      obtain ⟨hle, hall⟩ := @ih b.seq (fun b' hb' haccount' ↦
        hincreasing.1 b' hb' (haccount.trans haccount'.symm)) hincreasing.2
      refine ⟨UInt64.le_trans (UInt64.le_of_lt hstart) hle, ?_⟩
      intro b' hb' haccount'
      rcases List.mem_cons.mp hb' with rfl | hmem
      · exact hle
      · exact hall b' hmem haccount'
    · rw [if_neg haccount]
      obtain ⟨hle, hall⟩ := @ih floor
        (fun b' hb' ↦ habove b' (List.mem_cons_of_mem b hb')) hincreasing.2
      refine ⟨hle, ?_⟩
      intro b' hb' haccount'
      rcases List.mem_cons.mp hb' with rfl | hmem
      · exact (haccount haccount').elim
      · exact hall b' hmem haccount'

/-! ### Carry credits -/

namespace Carry

theorem credits_setCredits (st : Storage) (market account account' n : UInt32) :
    credits (setCredits st market account n) market account' =
      if account' = account then n else credits st market account' := by
  unfold credits setCredits
  by_cases h : account' = account
  · rw [if_pos h, h, getU32?_set_same]
    rfl
  · have hne : Key.cw market account' ≠ Key.cw market account := by
      rintro ⟨⟩
      exact h rfl
    rw [if_neg h, getU32?, getU32?, get_set_ne st _ hne]

theorem frame_mint (st : Storage) (market : UInt32) (carry : Bytes) :
    Frame (creditKeys market) st (mint st market carry) := by
  refine frame_foldl _ _ (fun st a _ ↦ ?_) st
  exact frame_set st _ ⟨u32At a 0, rfl⟩

/-- The accounts of a carry list, one entry each. -/
def accounts (carry : Bytes) : List UInt32 := (records 4 carry).map fun a ↦ u32At a 0

/-- Minting adds one credit per listing, up to the largest word. -/
theorem credits_mint (st : Storage) (market : UInt32) (carry : Bytes) (account : UInt32) :
    (credits (mint st market carry) market account).toNat =
      min ((credits st market account).toNat + (accounts carry).count account) (2 ^ 32 - 1) := by
  unfold mint accounts
  have hbound := fun st' ↦ (credits st' market account).toNat_lt
  induction records 4 carry generalizing st with
  | nil =>
    simp only [List.foldl_nil, List.map_nil, List.count_nil]
    have := hbound st
    omega
  | cons a entries ih =>
    simp only [List.foldl_cons, List.map_cons]
    rw [ih, credits_setCredits, List.count_cons]
    by_cases h : account = u32At a 0
    · have hone : (1 : UInt32).toNat = 1 := rfl
      rw [if_pos h, ← h, toNat_satAdd32, hone]
      simp only [beq_self_eq_true, if_true]
      omega
    · have hne : (u32At a 0 == account) = false := by
        simpa using Ne.symm h
      rw [if_neg h, hne]
      simp

theorem accounts_flatMap (xs : List UInt32) : accounts (xs.flatMap u32Bytes) = xs := by
  rw [accounts, records_flatMap (by decide) u32Bytes length_u32Bytes, List.map_map]
  exact (List.map_congr_left fun x _ ↦ u32At_u32Bytes x).trans (List.map_id _)

@[simp] theorem mint_nil (st : Storage) (market : UInt32) : mint st market [] = st := by
  simp [mint]

/-- An admitted re-seal had a credit and was not in the set. -/
theorem admitEntry_eq_true (h : admitEntry st setKey market entry = (true, st')) :
    credits st market (u32At entry 32) ≠ 0 ∧ entry ∉ records entryLen (st.getD setKey) ∧
      st' = (setCredits st market (u32At entry 32) (credits st market (u32At entry 32) - 1)).set
        setKey (st.getD setKey ++ entry) := by
  simp only [admitEntry] at h
  split_ifs at h with hcredit hmem
  · cases h
  · cases h
  · refine ⟨hcredit, ?_, (Prod.mk.inj h).2.symm⟩
    simpa using hmem

theorem frame_admitEntry (st : Storage) (setKey : Key) (market : UInt32) (entry : Bytes) :
    Frame ({setKey} ∪ creditKeys market) st (admitEntry st setKey market entry).2 := by
  simp only [admitEntry]
  split_ifs with hcredit hmem
  · exact Frame.refl _ _
  · exact Frame.refl _ _
  · exact (frame_set st _ (Or.inr ⟨_, rfl⟩)).set _ (Or.inl rfl)

/-- A refused re-seal writes nothing. -/
theorem admitEntry_eq_false (h : admitEntry st setKey market entry = (false, st')) : st' = st := by
  simp only [admitEntry] at h
  split_ifs at h with hcredit hmem
  · exact (Prod.mk.inj h).2.symm
  · exact (Prod.mk.inj h).2.symm
  · cases h

end Carry

/-! ### Deposits -/

namespace Deposit

theorem frame_admitNonce (st : Storage) (account : UInt32) (nonce : UInt64) :
    Frame {Key.dn account} st (admitNonce st account nonce).2 := by
  simp only [admitNonce]
  split_ifs with hfloor hseen
  all_goals first
    | exact Frame.refl _ _
    | exact frame_set st _ rfl

theorem admitNonce_eq_false {nonce : UInt64} (h : admitNonce st account nonce = (false, st')) :
    st' = st := by
  simp only [admitNonce] at h
  split_ifs at h with hfloor hseen
  all_goals first
    | exact (Prod.mk.inj h).2.symm
    | cases h

end Deposit

/-! ### Commit sets -/

theorem consumeSet_eq_true (h : consumeSet st key consumed = (true, st')) :
    ∃ rest, consume (records setEntryLen (st.getD key)) (records setEntryLen consumed) = some rest ∧
      st' = st.set key rest.flatten := by
  unfold consumeSet at h
  cases hrest : consume (records setEntryLen (st.getD key)) (records setEntryLen consumed) with
  | none =>
    rw [hrest] at h
    cases h
  | some rest =>
    rw [hrest] at h
    exact ⟨rest, rfl, (Prod.mk.inj h).2.symm⟩

theorem consumeSet_eq_false (h : consumeSet st key consumed = (false, st')) : st' = st := by
  unfold consumeSet at h
  cases hrest : consume (records setEntryLen (st.getD key)) (records setEntryLen consumed) with
  | none =>
    rw [hrest] at h
    exact (Prod.mk.inj h).2.symm
  | some rest =>
    rw [hrest] at h
    cases h

theorem frame_cageAdd (st : Storage) (market : UInt32) (cid : Bytes) (account slot : UInt32) :
    Frame {Key.cage market} st (cageAdd st market cid account slot) :=
  frame_set_self st _ _

theorem frame_gcCommits (st : Storage) (market slot : UInt32) :
    Frame {Key.cage market, Key.commits market} st (gcCommits st market slot) := by
  simp only [gcCommits]
  split_ifs
  · exact Frame.refl _ _
  · exact (frame_set st _ (Or.inl rfl)).set _ (Or.inr rfl)

theorem frame_registerKey (st : Storage) (pubkey : Bytes32) :
    Frame registryKeys st (registerKey st pubkey).1 := by
  unfold registerKey
  cases handleOf st pubkey with
  | some h => exact Frame.refl _ _
  | none =>
    exact ((frame_set st _ (Or.inl ⟨_, rfl⟩)).set _ (Or.inr (Or.inl ⟨_, rfl⟩))).set _
      (Or.inr (Or.inr rfl))

/-! ### Settlement -/

theorem frame_setBal (st : Storage) (asset account : UInt32) (v : UInt64) :
    Frame balanceKeys st (setBal st asset account v) :=
  frame_set st _ ⟨asset, account, rfl⟩

theorem frame_settleAccount (base quote : UInt32) (st : Storage) (delta : UInt32 × ℤ × ℤ) :
    Frame balanceKeys st (settleAccount base quote st delta) :=
  (frame_setBal st base _ _).trans (frame_setBal _ quote _ _)

theorem frame_chargeFee (base : UInt32) (st : Storage) (b : Binding) :
    Frame balanceKeys st (chargeFee base st b) := by
  simp only [chargeFee]
  split_ifs
  · exact (frame_setBal st base _ _).trans (frame_setBal _ base _ _)
  · exact Frame.refl _ _

theorem frame_applySettlement (st : Storage) (base quote market : UInt32)
    (settle bindings : Bytes) :
    Frame (balanceKeys ∪ tapeKeys market) st
      (applySettlement st base quote market settle bindings) := by
  simp only [applySettlement]
  have hfees : ∀ st : Storage, Frame (balanceKeys ∪ tapeKeys market) st
      ((decodeBindings bindings).foldl (chargeFee base) st) :=
    fun st ↦ (frame_foldl _ _ (fun st b _ ↦ frame_chargeFee base st b) st).mono
      Set.subset_union_left
  refine Frame.trans ?_ (hfees _)
  cases decodeSettlement settle with
  | none => exact Frame.refl _ _
  | some decoded =>
    obtain ⟨price, entries⟩ := decoded
    simp only []
    split_ifs with hempty
    · exact Frame.refl _ _
    · have hdeltas := (frame_foldl (settleAccount base quote)
        (settleDeltas price entries 0 feeAccount scale)
        (fun st d _ ↦ frame_settleAccount base quote st d) st).mono
          (Set.subset_union_left (t := tapeKeys market))
      exact (hdeltas.set _ (Or.inr (Or.inl rfl))).set _ (Or.inr (Or.inr rfl))

section AgreeOn

variable {K : Set Key} {st st₂ : Storage}

theorem Storage.AgreeOn.getBal_eq (hbal : balanceKeys ⊆ K) (h : AgreeOn K st st₂)
    (asset account : UInt32) : getBal st asset account = getBal st₂ asset account := by
  rw [getBal, getBal, getU64, getU64, h _ (hbal ⟨asset, account, rfl⟩)]

theorem Storage.AgreeOn.setBal (h : AgreeOn K st st₂) (asset account : UInt32) (v : UInt64) :
    AgreeOn K (setBal st asset account v) (setBal st₂ asset account v) := h.set _ _

theorem Storage.AgreeOn.settleAccount (hbal : balanceKeys ⊆ K) (base quote : UInt32)
    (d : UInt32 × ℤ × ℤ) (h : AgreeOn K st st₂) :
    AgreeOn K (settleAccount base quote st d) (settleAccount base quote st₂ d) := by
  simp only [Service.settleAccount]
  rw [h.getBal_eq hbal, (h.setBal base d.1 _).getBal_eq hbal]
  exact (h.setBal _ _ _).setBal _ _ _

theorem Storage.AgreeOn.chargeFee (hbal : balanceKeys ⊆ K) (base : UInt32) (b : Binding)
    (h : AgreeOn K st st₂) : AgreeOn K (chargeFee base st b) (chargeFee base st₂ b) := by
  simp only [Service.chargeFee]
  rw [h.getBal_eq hbal]
  split_ifs
  · rw [(h.setBal base b.account _).getBal_eq hbal]
    exact (h.setBal _ _ _).setBal _ _ _
  · exact h

/-- Settlement reads balances and volumes only. -/
theorem agreeOn_applySettlement (hbal : balanceKeys ⊆ K) (h : AgreeOn K st st₂)
    (base quote market : UInt32) (hcv : .cv market ∈ K) (settle bindings : Bytes) :
    AgreeOn K (applySettlement st base quote market settle bindings)
      (applySettlement st₂ base quote market settle bindings) := by
  simp only [applySettlement]
  refine List.foldl_rel (r := AgreeOn K) ?_ fun b _ _ _ hb ↦ hb.chargeFee hbal base b
  cases decodeSettlement settle with
  | none => exact h
  | some decoded =>
    obtain ⟨price, entries⟩ := decoded
    simp only []
    split_ifs with hempty
    · exact h
    · have hfold : AgreeOn K
          ((settleDeltas price entries 0 feeAccount scale).foldl (settleAccount base quote) st)
          ((settleDeltas price entries 0 feeAccount scale).foldl (settleAccount base quote) st₂) :=
        List.foldl_rel h fun d _ _ _ hd ↦ hd.settleAccount hbal base quote d
      have hdeltas := hfold.set (.lp market) (u32Bytes price)
      have hread := hdeltas _ hcv
      simp only [setU64, getU64]
      rw [hread]
      exact hdeltas.set _ _

end AgreeOn

end Jamswap.Service
