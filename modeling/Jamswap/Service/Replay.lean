import Jamswap.Library.Runs
import Jamswap.Service.ItemSteps

/-!
# Signed operations take effect once

Every signed operation carries a number on some line: an order seq or a commit seq of its account,
which must beat a floor, or a nonce of its account, of governance or of the committee, which must
equal a counter. `Issues` says what one accepted item does to the lines; the numbers of a run are
then pairwise distinct by `nodup_issued`, as long as no counter can have come round again. The two
floors of an account live under different keys, so rounds and commits do not see each other
(`signed_operations_once`). A counter has no gaps (`counters_without_gaps`).
-/

namespace Jamswap.Service

open Library Engine Storage

/-- The lines on which signed operations are numbered. -/
inductive Line
  | order (account : UInt32)
  | commit (account : UInt32)
  | nonce (account : UInt32)
  | governance
  | committee
  deriving DecidableEq

variable {K : Set Key} {l : Line} (P : Primitives) {st mid : Storage} {n : UInt64}
  {account : UInt32} {run : List SlotOutput}

namespace Line

def key : Line → Key
  | .order account => .sq account
  | .commit account => .sc account
  | .nonce account => .nc account
  | .governance => .govnonce
  | .committee => .comnonce

/-- A floor only has to be beaten; the other lines are counters. -/
def isFloor : Line → Bool
  | .order _ => true
  | .commit _ => true
  | _ => false

theorem key_injective : Function.Injective key := by
  intro l l' h
  cases l <;> cases l' <;> cases h <;> rfl

/-- The number stored for the line. -/
def value (st : Storage) (l : Line) : UInt64 := getU64 st l.key

theorem value_of_frame {st' : Storage} (h : Frame K st st') (hl : l.key ∉ K) :
    l.value st' = l.value st := h.getU64_eq hl

end Line

/-- A number used on a line. -/
abbrev Token := Line × UInt64

/-- The numbers an accepted output uses. -/
def tokensOf (out : Bytes) : List Token :=
  match tagOf out with
  | some .withdraw => [(.nonce (u32At out 1), u64At out 17)]
  | some .cancel => [(.nonce (u32At out 1), u64At out 13)]
  | some .treasury => [(.governance, u64At out 17)]
  | some .encSetup => [(.committee, u64At out (2 + (byteAt out 1).toNat * 32))]
  | some .commit => [(.commit (u32At out 5), u64At out 41)]
  | some .encCommit => [(.commit (u32At out encCtEnd), u64At out (encCtEnd + 4))]
  | some .smatch | some .reveal | some .encRound =>
    match parseRoundOutput out with
    | some r => (decodeBindings r.trailer.bindings).map fun b ↦ (.order b.account, b.seq)
    | none => []
  | _ => []

/-- One accumulated output of a run: its slot and its bytes. -/
abbrev SlotOutput := UInt32 × Bytes

/-- The storage after one output. -/
def accumulateStep (P : Primitives) (st : Storage) (x : SlotOutput) : Storage :=
  (accumulateItem P x.1 st x.2).1

/-- The numbers that take effect in one output: those of its operations, if it is accepted. -/
def effective (P : Primitives) (st : Storage) (x : SlotOutput) : List Token :=
  match (accumulateItem P x.1 st x.2).2 with
  | .accepted => tokensOf x.2
  | .refused => []

/-! ### One item -/

/-- What using these numbers does to the lines. -/
structure Issues (st st' : Storage) (tokens : List Token) : Prop where
  nodup : tokens.Nodup
  floors : ∀ l : Line, l.isFloor → l.value st ≤ l.value st'
  beaten : ∀ t ∈ tokens, t.1.isFloor → t.1.value st < t.2 ∧ t.2 ≤ t.1.value st'
  counted : ∀ t ∈ tokens, t.1.isFloor = false → t.2 = t.1.value st ∧ t.1.value st' = t.2 + 1
  kept : ∀ l : Line, l.isFloor = false → (∀ t ∈ tokens, t.1 ≠ l) → l.value st' = l.value st

section Issuing

variable {P : Primitives} {slot : UInt32} {st st' : Storage} {out : Bytes}

theorem issues_nil (h : Frame K st st') (hK : ∀ l : Line, l.key ∉ K) :
    Issues st st' [] where
  nodup := List.nodup_nil
  floors l _ := by
    rw [Line.value_of_frame h (hK l)]
    exact UInt64.le_refl _
  beaten := by simp
  counted := by simp
  kept l _ _ := Line.value_of_frame h (hK l)

/-- An item that writes one line only, and uses one number on it. -/
theorem issues_one (h : Frame K st st') (hK : ∀ l' : Line, l'.key ∈ K → l' = l)
    (hfloor : l.isFloor → l.value st < n ∧ n ≤ l.value st')
    (hcounter : l.isFloor = false → n = l.value st ∧ l.value st' = n + 1) :
    Issues st st' [(l, n)] where
  nodup := List.nodup_singleton _
  floors l' hl' := by
    by_cases heq : l' = l
    · subst heq
      obtain ⟨hlt, hle⟩ := hfloor hl'
      exact UInt64.le_trans (UInt64.le_of_lt hlt) hle
    · rw [Line.value_of_frame h fun hmem ↦ heq (hK l' hmem)]
      exact UInt64.le_refl _
  beaten t ht hl := by
    cases List.mem_singleton.mp ht
    exact hfloor hl
  counted t ht hl := by
    cases List.mem_singleton.mp ht
    exact hcounter hl
  kept l' _ hne := by
    refine Line.value_of_frame h fun hmem ↦ ?_
    exact hne _ (List.mem_singleton.mpr rfl) (hK l' hmem).symm

theorem issues_commit {seq : UInt64} (hadmitted : admitCommit st account seq = (true, mid))
    (hlater : Frame K mid st') (hK : ∀ l : Line, l.key ∉ K) :
    Issues st st' [(.commit account, seq)] := by
  have hvalue : Line.value st' (.commit account) = seq := by
    rw [Line.value_of_frame hlater (hK _)]
    rw [admitCommit_eq] at hadmitted
    split_ifs at hadmitted
    · rw [← (Prod.mk.inj hadmitted).2]
      exact getU64_setU64_same st _ _
    · cases hadmitted
  refine issues_one ((frame_admitCommit hadmitted).seq hlater) ?_ (fun _ ↦ ⟨?_, ?_⟩) nofun
  · rintro l (hl | hl)
    · exact Line.key_injective hl
    · exact absurd hl (hK l)
  · exact admitCommit_above hadmitted
  · rw [hvalue]
    exact UInt64.le_refl _

/-- An item that checks a counter, moves it on and writes no other line. -/
theorem issues_counter (hn : n = l.value st) (hl : l.isFloor = false)
    (hlater : Frame K (setU64 st l.key (n + 1)) st') (hK : ∀ l : Line, l.key ∉ K) :
    Issues st st' [(l, n)] := by
  refine issues_one ((frame_set_self st _ _).seq hlater) ?_ ?_ (fun _ ↦ ⟨hn, ?_⟩)
  · rintro l' (hl' | hl')
    · exact Line.key_injective hl'
    · exact absurd hl' (hK l')
  · intro hfloor
    rw [hl] at hfloor
    cases hfloor
  · rw [Line.value_of_frame hlater (hK l)]
    exact getU64_setU64_same st _ _

/-- A round uses the seqs of its bindings. -/
theorem RoundStep.issues {tag : Tag} {r : RoundOutput} {floors : List (UInt32 × UInt64)}
    (h : RoundStep P slot st out tag r floors mid st') :
    Issues st st' ((decodeBindings r.trailer.bindings).map fun b ↦ (.order b.account, b.seq)) := by
  have hadmitted := h.bindingsAdmitted
  have hraised : ∀ account, getU64 st (.sq account) ≤ getU64 st' (.sq account) ∧
      ∀ b ∈ decodeBindings r.trailer.bindings, b.account = account →
        b.seq ≤ getU64 st' (.sq account) := by
    intro account
    rw [h.floor_eq account]
    refine le_raisedFloor ?_ hadmitted.increasing
    rintro b hb rfl
    exact hadmitted.above b hb
  have hkept : ∀ l : Line, (∀ account, l ≠ .order account) → l.value st' = l.value st := by
    intro l hl
    refine Line.value_of_frame h.frame ?_
    cases l with
    | order account => exact absurd rfl (hl account)
    | _ => simp [Line.key, roundKeys]
  constructor
  case nodup =>
    rw [List.Nodup, List.pairwise_map]
    refine hadmitted.increasing.imp fun hlt heq ↦ ?_
    obtain ⟨hline, hseq⟩ := Prod.mk.inj heq
    exact UInt64.lt_irrefl _ (hseq ▸ hlt (Line.order.inj hline))
  case floors =>
    intro l _
    by_cases hl : ∃ account, l = .order account
    · obtain ⟨account, rfl⟩ := hl
      exact (hraised account).1
    · rw [hkept l fun account heq ↦ hl ⟨account, heq⟩]
      exact UInt64.le_refl _
  case beaten =>
    intro t ht _
    obtain ⟨b, hb, rfl⟩ := List.mem_map.mp ht
    exact ⟨hadmitted.above b hb, (hraised b.account).2 b hb rfl⟩
  case counted =>
    intro t ht hcounter
    obtain ⟨b, hb, rfl⟩ := List.mem_map.mp ht
    cases hcounter
  case kept =>
    intro l hcounter _
    refine hkept l ?_
    rintro account rfl
    cases hcounter

/-- An accepted item uses the numbers it carries. -/
theorem ItemStep.issues (h : ItemStep P slot st out st') : Issues st st' (tokensOf out) := by
  have hsilent : ∀ tag, tagOf out = some tag → tokensOf out = [] →
      (∀ l : Line, l.key ∉ itemKeys tag out) → Issues st st' (tokensOf out) := by
    intro tag htag htokens hkeys
    rw [htokens]
    exact issues_nil (h.frame htag) hkeys
  cases h with
  | deposit tagged | carryCommit tagged | carryEncCommit tagged | register tagged | list tagged =>
    refine hsilent _ tagged (by simp only [tokensOf, tagged]) fun l ↦ ?_
    cases l <;> simp [Line.key]
  | withdraw tagged sized owner nonce =>
    simp only [tokensOf, tagged]
    refine issues_counter (l := .nonce _) nonce rfl (frame_payOut _ _ _ _) fun l ↦ ?_
    cases l <;> simp [Line.key]
  | commit tagged sized owner admitted =>
    simp only [tokensOf, tagged]
    refine issues_commit admitted (frame_recordCommit slot _ _ _ _) fun l ↦ ?_
    cases l <;> simp [Line.key]
  | cancel tagged sized owner nonce =>
    simp only [tokensOf, tagged]
    refine issues_counter (l := .nonce _) nonce rfl (frame_set_self _ _ _) fun l ↦ ?_
    cases l <;> simp [Line.key]
  | treasury tagged sized nonce =>
    simp only [tokensOf, tagged]
    refine issues_counter (l := .governance) nonce rfl (frame_sweepTreasury _ _ _ _) fun l ↦ ?_
    cases l <;> simp [Line.key]
  | encSetup tagged sized nonce =>
    simp only [tokensOf, tagged]
    refine issues_counter (l := .committee) nonce rfl (frame_set_self _ _ _) fun l ↦ ?_
    cases l <;> simp [Line.key]
  | encCommit tagged sized owner admitted =>
    simp only [tokensOf, tagged]
    refine issues_commit admitted (frame_set_self _ _ _) fun l ↦ ?_
    cases l <;> simp [Line.key]
  | @round tag r floors mid _ isRound step =>
    have htokens : tokensOf out =
        (decodeBindings r.trailer.bindings).map fun b ↦ (.order b.account, b.seq) := by
      cases tag with
      | smatch | reveal | encRound => simp only [tokensOf, step.tagged, step.parsed]
      | _ => cases isRound
    rw [htokens]
    exact step.issues

/-- What one output of a run does to the lines. -/
theorem issues_step (P : Primitives) (st : Storage) (x : SlotOutput) :
    Issues st (accumulateStep P st x) (effective P st x) := by
  unfold accumulateStep effective
  cases hitem : accumulateItem P x.1 st x.2 with
  | mk st' verdict =>
    cases verdict with
    | accepted => exact (itemStep_of_accepted hitem).issues
    | refused =>
      rw [eq_of_refused hitem]
      exact issues_nil (Frame.refl ∅ st) fun _ ↦ Set.notMem_empty _

/-- Order and commit floors never fall. -/
theorem floor_le_deliver (P : Primitives) (st : Storage) (item : WorkItem) (hl : l.isFloor) :
    l.value st ≤ l.value (deliver P st item).1 := by
  unfold deliver
  cases workResult P item.payload with
  | error e => exact UInt64.le_refl _
  | ok out => exact (issues_step P st (item.slot, out.val)).floors l hl

end Issuing

/-! ### Runs -/

namespace Line

/-- How far a counter has moved since `start`. -/
def moved (start st : Storage) (l : Line) : ℕ := (l.value st - l.value start).toNat

/-- The mark of a line: a floor's next number, or how far a counter has moved since `start`. -/
def mark (start st : Storage) (l : Line) : ℕ :=
  if l.isFloor then (l.value st).toNat + 1 else l.moved start st

end Line

/-- Where a number stands on its line, on the scale of `Line.mark`. -/
def Token.rank (start : Storage) (t : Token) : ℕ :=
  if t.1.isFloor then t.2.toNat else (t.2 - t.1.value start).toNat

/-- No counter is about to come round to where it was in `start`. -/
def Unwrapped (start st : Storage) : Prop :=
  ∀ l : Line, l.isFloor = false → l.moved start st + 1 < 2 ^ 64

theorem toNat_succ_sub {v w : UInt64} (h : (v - w).toNat + 1 < 2 ^ 64) :
    (v + 1 - w).toNat = (v - w).toNat + 1 := by
  have hv := v.toNat_lt
  have hw := w.toNat_lt
  rw [UInt64.toNat_sub] at h ⊢
  rw [UInt64.toNat_sub, UInt64.toNat_add, UInt64.toNat_one]
  omega

section Marks

variable {start st st' : Storage} {tokens : List Token}

theorem Issues.moved_eq (h : Issues st st' tokens) (hwrap : Unwrapped start st)
    (hl : l.isFloor = false) :
    l.moved start st' = l.moved start st ∨ l.moved start st' = l.moved start st + 1 := by
  by_cases hused : ∃ t ∈ tokens, t.1 = l
  · obtain ⟨t, ht, rfl⟩ := hused
    obtain ⟨hnow, hnext⟩ := h.counted t ht hl
    refine Or.inr ?_
    rw [Line.moved, hnext, hnow]
    exact toNat_succ_sub (hwrap _ hl)
  · refine Or.inl ?_
    rw [Line.moved, Line.moved, h.kept l hl fun t ht heq ↦ hused ⟨t, ht, heq⟩]

theorem Issues.mark_le (h : Issues st st' tokens) (hwrap : Unwrapped start st) (l : Line) :
    l.mark start st ≤ l.mark start st' := by
  unfold Line.mark
  split_ifs with hl
  · exact Nat.succ_le_succ (UInt64.le_iff_toNat_le.mp (h.floors l hl))
  · rcases h.moved_eq hwrap (Bool.not_eq_true _ ▸ hl) with heq | heq <;> omega

theorem Issues.rank_bounds (h : Issues st st' tokens) (hwrap : Unwrapped start st) {t : Token}
    (ht : t ∈ tokens) :
    t.1.mark start st ≤ t.rank start ∧ t.rank start < t.1.mark start st' := by
  unfold Line.mark Token.rank
  split_ifs with hl
  · obtain ⟨hlt, hle⟩ := h.beaten t ht hl
    exact ⟨UInt64.lt_iff_toNat_lt.mp hlt, Nat.lt_succ_of_le (UInt64.le_iff_toNat_le.mp hle)⟩
  · have hl : t.1.isFloor = false := Bool.not_eq_true _ ▸ hl
    obtain ⟨hnow, hnext⟩ := h.counted t ht hl
    have hmoved : t.1.moved start st' = t.1.moved start st + 1 := by
      rw [Line.moved, hnext, hnow]
      exact toNat_succ_sub (hwrap _ hl)
    rw [hnow, hmoved]
    exact ⟨Nat.le_refl _, Nat.lt_succ_self _⟩

end Marks

/-- A run too short to bring a counter round. -/
theorem alongRun_unwrapped {start : Storage}
    (h : ∀ l : Line, l.isFloor = false → l.moved start st + run.length < 2 ^ 64) :
    AlongRun (accumulateStep P) (fun st _ ↦ Unwrapped start st) st run := by
  induction run generalizing st with
  | nil => trivial
  | cons x run ih =>
    have hnow : Unwrapped start st := by
      intro l hl
      have hlen := h l hl
      rw [List.length_cons] at hlen
      omega
    refine ⟨hnow, ih fun l hl ↦ ?_⟩
    have hlen := h l hl
    rw [List.length_cons] at hlen
    rcases (issues_step P st x).moved_eq hnow hl with heq | heq <;> omega

theorem nodup_effective (st : Storage) (hlen : run.length < 2 ^ 64) :
    (issuedOver (accumulateStep P) (effective P) st run).Nodup := by
  have hrun : AlongRun (accumulateStep P) (fun st' _ ↦ Unwrapped st st') st run := by
    refine alongRun_unwrapped P fun l _ ↦ ?_
    rw [Line.moved, UInt64.sub_self, UInt64.toNat_zero, Nat.zero_add]
    exact hlen
  exact (nodup_issued Prod.fst (Token.rank st) (fun st' l ↦ Line.mark st st' l)
    (fun st' x _ ↦ (issues_step P st' x).nodup)
    (fun st' x hwrap l ↦ (issues_step P st' x).mark_le hwrap l)
    (fun st' x hwrap _ ht ↦ (issues_step P st' x).rank_bounds hwrap ht) hrun).1

theorem floor_le_run (hl : l.isFloor) (st : Storage) (run : List SlotOutput) :
    l.value st ≤ l.value (run.foldl (accumulateStep P) st) :=
  List.foldlRecOn (motive := fun st' ↦ l.value st ≤ l.value st') _ _ (UInt64.le_refl _)
    fun st' h x _ ↦ UInt64.le_trans h ((issues_step P st' x).floors l hl)

/-! ### Rounds and commits do not see each other -/

/-- The keys commits and re-seals write, on any market and for any account. -/
def commitWrites : Set Key :=
  {k | ∃ x, k = .sc x ∨ k = .commits x ∨ k = .encset x ∨ k = .cage x ∨ ∃ y, k = .cw x y}

/-- The keys rounds write, on any market. -/
def roundWrites : Set Key := {k | ∃ market, k ∈ roundKeys market}

/-- Is this the tag of a commit or a re-seal? -/
def Tag.isCommit : Tag → Bool
  | .commit | .encCommit | .carryCommit | .carryEncCommit => true
  | _ => false

/-- Is this the tag of a signed commit? -/
def Tag.isSignedCommit : Tag → Bool
  | .commit | .encCommit => true
  | _ => false

section Independence

variable {P : Primitives} {slot : UInt32} {st st' : Storage} {out : Bytes} {tag : Tag}

theorem ItemStep.frame_commitWrites (htag : tagOf out = some tag) (hcommit : tag.isCommit)
    (h : ItemStep P slot st out st') : Frame commitWrites st st' := by
  refine (h.frame htag).mono fun k hk ↦ ?_
  cases tag with
  | commit =>
    rcases hk with rfl | rfl | rfl
    · exact ⟨_, Or.inl rfl⟩
    · exact ⟨_, Or.inr (Or.inr (Or.inr (Or.inl rfl)))⟩
    · exact ⟨_, Or.inr (Or.inl rfl)⟩
  | carryCommit =>
    rcases hk with (rfl | ⟨account, rfl⟩) | rfl | rfl
    · exact ⟨_, Or.inr (Or.inl rfl)⟩
    · exact ⟨_, Or.inr (Or.inr (Or.inr (Or.inr ⟨account, rfl⟩)))⟩
    · exact ⟨_, Or.inr (Or.inr (Or.inr (Or.inl rfl)))⟩
    · exact ⟨_, Or.inr (Or.inl rfl)⟩
  | encCommit =>
    rcases hk with rfl | rfl
    · exact ⟨_, Or.inl rfl⟩
    · exact ⟨_, Or.inr (Or.inr (Or.inl rfl))⟩
  | carryEncCommit =>
    rcases hk with rfl | ⟨account, rfl⟩
    · exact ⟨_, Or.inr (Or.inr (Or.inl rfl))⟩
    · exact ⟨_, Or.inr (Or.inr (Or.inr (Or.inr ⟨account, rfl⟩)))⟩
  | _ => cases hcommit

theorem ItemStep.frame_roundWrites (htag : tagOf out = some tag) (hround : tag.isRound)
    (h : ItemStep P slot st out st') : Frame roundWrites st st' := by
  refine (h.frame htag).mono fun k hk ↦ ⟨u32At out 1, ?_⟩
  cases tag with
  | smatch | reveal | encRound => exact hk
  | _ => cases hround

theorem pubkeyOf_of_frame (h : Frame K st st') (hk : Key.pk account ∉ K) :
    pubkeyOf st' account = pubkeyOf st account := by
  unfold pubkeyOf
  rw [h.get_eq hk]

/-- The bindings of a round are checked the same whatever commits have been admitted. -/
theorem checkRoundAuth_of_frame (h : Frame commitWrites st st') (market : UInt32)
    (bindings bookHash : Bytes) :
    checkRoundAuth P st' market bindings bookHash =
      checkRoundAuth P st market bindings bookHash := by
  have hbinding : ∀ price pct, checkBinding st' price pct = checkBinding st price pct := by
    intro price pct
    funext floors b
    unfold checkBinding runningFloor
    rw [pubkeyOf_of_frame h (by simp [commitWrites]), h.getU64_eq (by simp [commitWrites])]
  unfold checkRoundAuth checkBindings
  rw [h.getD_eq (by simp [commitWrites]), h.getU64_eq (by simp [commitWrites]), hbinding]

/-- A signed commit is admitted the same whatever rounds have been accepted. -/
theorem commit_verdict_of_frame (h : Frame roundWrites st st') (htag : tagOf out = some tag)
    (hcommit : tag.isSignedCommit) (slot : UInt32) :
    (accumulateItem P slot st' out).2 = (accumulateItem P slot st out).2 := by
  have hkeys : ∀ x, Key.pk x ∉ roundWrites ∧ Key.sc x ∉ roundWrites := by
    intro x
    simp [roundWrites, roundKeys]
  have howner : ∀ account signer, isOwner st' account signer = isOwner st account signer := by
    intro account signer
    unfold isOwner
    rw [pubkeyOf_of_frame h (hkeys account).1]
  have hfloor : ∀ account, getU64 st' (.sc account) = getU64 st (.sc account) :=
    fun account ↦ h.getU64_eq (hkeys account).2
  have htag' : out.head?.bind Tag.ofByte = some tag := htag
  cases tag with
  | commit =>
    simp only [accumulateItem, htag', accumulateCommit, howner, admitCommit, hfloor]
    split_ifs <;> rfl
  | encCommit =>
    simp only [accumulateItem, htag', accumulateEncCommit, howner, admitCommit, hfloor]
    split_ifs <;> rfl
  | _ => cases hcommit

end Independence

/-- No signed operation takes effect twice: over a run of fewer than `2 ^ 64` outputs the numbers
that take effect are pairwise distinct on each line; the order and commit floors never fall; and the
check of a round's bindings reads nothing that commits write, nor a commit's admission anything that
rounds write. -/
theorem signed_operations_once (P : Primitives) (st : Storage) (run : List SlotOutput)
    (hlen : run.length < 2 ^ 64) :
    (issuedOver (accumulateStep P) (effective P) st run).Nodup ∧
    (∀ account, getU64 st (.sq account) ≤ getU64 (run.foldl (accumulateStep P) st) (.sq account) ∧
      getU64 st (.sc account) ≤ getU64 (run.foldl (accumulateStep P) st) (.sc account)) ∧
    (∀ slot st st' out tag, tagOf out = some tag →
      accumulateItem P slot st out = (st', .accepted) →
        (tag.isCommit → Frame commitWrites st st') ∧ (tag.isRound → Frame roundWrites st st')) ∧
    (∀ st st', Frame commitWrites st st' → ∀ market bindings bookHash,
      checkRoundAuth P st' market bindings bookHash =
        checkRoundAuth P st market bindings bookHash) ∧
    ∀ st st', Frame roundWrites st st' → ∀ slot out tag, tagOf out = some tag →
      tag.isSignedCommit →
        (accumulateItem P slot st' out).2 = (accumulateItem P slot st out).2 := by
  refine ⟨nodup_effective P st hlen, ?_, ?_, ?_, ?_⟩
  · intro account
    exact ⟨floor_le_run P (l := .order account) rfl st run,
      floor_le_run P (l := .commit account) rfl st run⟩
  · intro slot st st' out tag htag haccepted
    have hstep := itemStep_of_accepted haccepted
    exact ⟨fun hcommit ↦ hstep.frame_commitWrites htag hcommit,
      fun hround ↦ hstep.frame_roundWrites htag hround⟩
  · intro st st' hframe market bindings bookHash
    exact checkRoundAuth_of_frame hframe market bindings bookHash
  · intro st st' hframe slot out tag htag hcommit
    exact commit_verdict_of_frame hframe htag hcommit slot

/-- Account 1 cancels with nonce 0, tries to do so again, and goes on with nonce 1. -/
def repeatedCancels : List SlotOutput :=
  [0, 0, 1].map fun nonce ↦ (5, [Tag.cancel.byte] ++ u32Bytes 1 ++ u32Bytes 0 ++ u32Bytes 7 ++
    u64Bytes nonce ++ List.replicate 32 9)

theorem repeatedCancels_once :
    (issuedOver (accumulateStep Primitives.toy) (effective Primitives.toy)
        (Storage.set Store.empty (.pk 1) (List.replicate 32 9)) repeatedCancels).Nodup ∧
      issuedOver (accumulateStep Primitives.toy) (effective Primitives.toy)
        (Storage.set Store.empty (.pk 1) (List.replicate 32 9)) repeatedCancels =
          [(.nonce 1, 0), (.nonce 1, 1)] :=
  ⟨(signed_operations_once Primitives.toy _ repeatedCancels (by decide +kernel)).1,
    by decide +kernel⟩

/-! ### Counters have no gaps -/

/-- The numbers that take effect on the line are consecutive from the stored one on, and the next
one is stored. -/
def Consecutive (P : Primitives) (st : Storage) (run : List SlotOutput) (l : Line) : Prop :=
  ∃ n, (issuedOver (accumulateStep P) (effective P) st run).filter (·.1 = l) =
      (List.iterate (· + 1) (l.value st) n).map (Prod.mk l) ∧
    l.value (run.foldl (accumulateStep P) st) = (· + 1)^[n] (l.value st)

theorem Issues.counter {st st' : Storage} {tokens : List Token} (h : Issues st st' tokens)
    (hl : l.isFloor = false) :
    tokens.filter (·.1 = l) = [] ∧ l.value st' = l.value st ∨
      tokens.filter (·.1 = l) = [(l, l.value st)] ∧ l.value st' = l.value st + 1 := by
  have honly : tokens.filter (·.1 = l) = tokens.filter (· == (l, l.value st)) := by
    refine List.filter_congr fun t ht ↦ ?_
    rw [Bool.eq_iff_iff, decide_eq_true_iff, beq_iff_eq]
    exact ⟨by rintro rfl; exact Prod.ext rfl (h.counted t ht hl).1, fun heq ↦ by rw [heq]⟩
  rw [honly, List.filter_beq]
  by_cases hused : (l, l.value st) ∈ tokens
  · rw [List.count_eq_one_of_mem h.nodup hused]
    exact Or.inr ⟨rfl, (h.counted _ hused hl).2⟩
  · rw [List.count_eq_zero_of_not_mem hused]
    refine Or.inl ⟨rfl, h.kept l hl fun t ht heq ↦ hused ?_⟩
    subst heq
    rwa [← (h.counted t ht hl).1]

/-- Withdrawals and cancels of an account, sweeps and committee changes each take effect in the
order of their nonces, none left out. -/
theorem counters_without_gaps (P : Primitives) (st : Storage) (run : List SlotOutput) :
    (∀ account, Consecutive P st run (.nonce account)) ∧ Consecutive P st run .governance ∧
      Consecutive P st run .committee := by
  have hline : ∀ l : Line, l.isFloor = false → Consecutive P st run l := fun l hl ↦
    issued_of_counter (fun st ↦ l.value st) _ _ (fun st x ↦ (issues_step P st x).counter hl) st run
  exact ⟨fun account ↦ hline _ rfl, hline _ rfl, hline _ rfl⟩

end Jamswap.Service
