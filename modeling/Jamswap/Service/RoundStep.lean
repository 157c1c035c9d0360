import Jamswap.Service.RuleSpecs

/-!
# The one step an accepted round takes

The three round handlers differ in what they parse and consume and agree in everything else.
`RoundStep` says once what an accepted round of any type has checked and what it does to storage,
and `roundStep_of_accepted` derives it from the handlers. The observable fields of the storage
after the round follow: order floors, landed marker, commit set, credits, book, balances, price and
volume, each in terms of the storage before.
-/

namespace Jamswap.Service

open Library Engine Storage

/-- Is this the tag of a round? -/
def Tag.isRound : Tag → Bool
  | .smatch | .reveal | .encRound => true
  | _ => false

/-- The set a round of this type consumes from. -/
def Tag.setKey (tag : Tag) (market : UInt32) : Option Key :=
  match tag with
  | .reveal => some (.commits market)
  | .encRound => some (.encset market)
  | _ => none

/-- Consume the round's entries; a reveal also purges the age index. -/
def consumeRound (st : Storage) (tag : Tag) (market : UInt32) (consumed : Bytes) : Option Storage :=
  match tag with
  | .reveal =>
    match consumeSet st (.commits market) consumed with
    | (true, st) => some (cagePurge st market consumed)
    | (false, _) => none
  | .encRound =>
    match consumeSet st (.encset market) consumed with
    | (true, st) => some st
    | (false, _) => none
  | _ => some st

/-- What an accepted round has checked against `st` and how it gets to `st'`; `mid` is the storage
after consumption, before any other write. -/
structure RoundStep (P : Primitives) (slot : UInt32) (st : Storage) (out : Bytes) (tag : Tag)
    (r : RoundOutput) (floors : List (UInt32 × UInt64)) (mid st' : Storage) : Prop where
  tagged : tagOf out = some tag
  parsed : parseRoundOutput out = some r
  listed : marketAssets st (u32At out 1) = some (u32At out 5, u32At out 9)
  effective : isNoopRound st (u32At out 1) r.trailer r.consumed = false
  committee : tag = .encRound → st.getD .committee ≠ [] ∧
    r.committeeHash = some (committeeHash P (st.getD .committee)).val
  authorised : checkRoundAuth P st (u32At out 1) r.trailer.bindings r.trailer.bookHash = some floors
  consumes : consumeRound st tag (u32At out 1) r.consumed = some mid
  finishes : st' = applySettlement
    ((Carry.mint (acceptRound mid floors r.trailer.roundId slot) (u32At out 1) r.carry).set
      (.book (u32At out 1)) r.trailer.book)
    (u32At out 5) (u32At out 9) (u32At out 1) r.settle r.trailer.bindings

variable {tag : Tag} {st mid : Storage} {market : UInt32} {consumed : Bytes}

section Inversion

variable {P : Primitives} {slot : UInt32} {st st' : Storage} {out : Bytes}

theorem parseSmatch_plain {r : RoundOutput} (h : parseSmatch out = some r) :
    r.consumed = [] ∧ r.carry = [] := by
  simp only [parseSmatch] at h
  split_ifs at h
  obtain ⟨trailer, -, hr⟩ := Option.bind_eq_some_iff.mp h
  cases hr
  exact ⟨rfl, rfl⟩

theorem roundStep_of_smatch (htag : tagOf out = some .smatch)
    (h : accumulateSmatch P slot st out = (st', .accepted)) :
    ∃ r floors mid, RoundStep P slot st out .smatch r floors mid st' := by
  simp only [accumulateSmatch] at h
  repeat' split at h
  all_goals cases h
  rename_i hlen hlisted _ r hparse hnoop _ floors hauth
  obtain ⟨hconsumed, hcarry⟩ := parseSmatch_plain hparse
  refine ⟨r, floors, st, htag, ?_, not_not.mp hlisted, ?_, nofun, hauth, rfl, ?_⟩
  · rw [parseRoundOutput, htag]
    exact (if_pos hlen).trans hparse
  · rw [hconsumed]
    exact Bool.eq_false_iff.mpr hnoop
  · rw [hcarry, Carry.mint_nil]

theorem roundStep_of_reveal (htag : tagOf out = some .reveal)
    (h : accumulateReveal P slot st out = (st', .accepted)) :
    ∃ r floors mid, RoundStep P slot st out .reveal r floors mid st' := by
  simp only [accumulateReveal] at h
  repeat' split at h
  all_goals cases h
  rename_i hlen hlisted _ r hparse hnoop _ floors hauth _ mid hset
  refine ⟨r, floors, cagePurge mid (u32At out 1) r.consumed, htag, ?_, not_not.mp hlisted,
    Bool.eq_false_iff.mpr hnoop, nofun, hauth, ?_, rfl⟩
  · rw [parseRoundOutput, htag]
    exact (if_pos hlen).trans hparse
  · rw [consumeRound, hset]

theorem roundStep_of_encRound (htag : tagOf out = some .encRound)
    (h : accumulateEncRound P slot st out = (st', .accepted)) :
    ∃ r floors mid, RoundStep P slot st out .encRound r floors mid st' := by
  simp only [accumulateEncRound] at h
  repeat' split at h
  all_goals cases h
  rename_i hlen hlisted _ r hparse hnoop hcommittee _ floors hauth _ mid hset
  rw [not_or, not_not] at hcommittee
  refine ⟨r, floors, mid, htag, ?_, not_not.mp hlisted, Bool.eq_false_iff.mpr hnoop,
    fun _ ↦ ⟨?_, hcommittee.2.symm⟩, hauth, ?_, rfl⟩
  · rw [parseRoundOutput, htag]
    exact (if_pos hlen).trans hparse
  · simpa using hcommittee.1
  · rw [consumeRound, hset]

/-- Every accepted round, of any type, is a `RoundStep`. -/
theorem roundStep_of_accepted (htag : tagOf out = some tag) (hround : tag.isRound)
    (h : accumulateItem P slot st out = (st', .accepted)) :
    ∃ r floors mid, RoundStep P slot st out tag r floors mid st' := by
  have htag' : out.head?.bind Tag.ofByte = some tag := htag
  unfold accumulateItem at h
  rw [htag'] at h
  cases tag with
  | smatch => exact roundStep_of_smatch htag h
  | reveal => exact roundStep_of_reveal htag h
  | encRound => exact roundStep_of_encRound htag h
  | _ => cases hround

end Inversion

/-! ### What the round leaves behind -/

/-- The keys consumption can touch. -/
@[simp]
def consumptionKeys (market : UInt32) : Set Key := {.commits market, .encset market, .cage market}

/-- The keys consumption for a round of this type can touch. -/
@[simp]
def Tag.consumptionKeys (tag : Tag) (market : UInt32) : Set Key :=
  match tag with
  | .reveal => {.commits market, .cage market}
  | .encRound => {.encset market}
  | _ => ∅

theorem frame_consumeRound_tag (h : consumeRound st tag market consumed = some mid) :
    Frame (tag.consumptionKeys market) st mid := by
  cases tag with
  | reveal =>
    simp only [consumeRound] at h
    split at h <;> cases h
    rename_i next hset
    obtain ⟨rest, -, rfl⟩ := consumeSet_eq_true hset
    exact (frame_set st _ (Or.inl rfl)).set _ (Or.inr rfl)
  | encRound =>
    simp only [consumeRound] at h
    split at h <;> cases h
    rename_i hset
    obtain ⟨rest, -, rfl⟩ := consumeSet_eq_true hset
    exact frame_set_self st _ _
  | _ =>
    cases h
    exact Frame.refl _ _

theorem frame_consumeRound (h : consumeRound st tag market consumed = some mid) :
    Frame (consumptionKeys market) st mid := by
  refine (frame_consumeRound_tag h).mono ?_
  cases tag <;> simp [Set.insert_subset_iff]

/-- A round that consumes from a set claims a distinct stored entry for each of its own and leaves
the rest, in order. -/
theorem consumeRound_set {key : Key} (h : consumeRound st tag market consumed = some mid)
    (hkey : tag.setKey market = some key) :
    ∃ rest, consume (records setEntryLen (st.getD key)) (records setEntryLen consumed) = some rest ∧
      mid.getD key = rest.flatten := by
  cases tag with
  | reveal =>
    cases hkey
    simp only [consumeRound] at h
    split at h <;> cases h
    rename_i next hset
    obtain ⟨rest, hrest, rfl⟩ := consumeSet_eq_true hset
    refine ⟨rest, hrest, ?_⟩
    rw [cagePurge, getD_set_ne _ _ (by simp), getD_set_same]
  | encRound =>
    cases hkey
    simp only [consumeRound] at h
    split at h <;> cases h
    rename_i hset
    obtain ⟨rest, hrest, rfl⟩ := consumeSet_eq_true hset
    exact ⟨rest, hrest, getD_set_same _ _ _⟩
  | _ => cases hkey

/-- The keys an accepted round on this market can touch. -/
def roundKeys (market : UInt32) : Set Key :=
  consumptionKeys market ∪ (orderFloorKeys ∪ landedKeys) ∪ creditKeys market ∪ {.book market} ∪
    (balanceKeys ∪ tapeKeys market)

namespace RoundStep

variable {P : Primitives} {slot : UInt32} {st st' mid : Storage} {out : Bytes} {tag : Tag}
  {r : RoundOutput} {floors : List (UInt32 × UInt64)}
  (h : RoundStep P slot st out tag r floors mid st')

include h

theorem frame : Frame (roundKeys (u32At out 1)) st st' := by
  rw [h.finishes]
  exact ((((frame_consumeRound h.consumes).seq (frame_acceptRound mid floors _ slot)).seq
    (Carry.frame_mint _ _ _)).seq (frame_set_self _ _ _)).seq (frame_applySettlement _ _ _ _ _ _)

/-- What the round writes once its entries are consumed. -/
theorem frame_finish :
    Frame ((orderFloorKeys ∪ landedKeys) ∪ creditKeys (u32At out 1) ∪ {.book (u32At out 1)} ∪
      (balanceKeys ∪ tapeKeys (u32At out 1))) mid st' := by
  rw [h.finishes]
  exact (((frame_acceptRound mid floors _ slot).seq (Carry.frame_mint _ _ _)).seq
    (frame_set_self _ _ _)).seq (frame_applySettlement _ _ _ _ _ _)

/-- A round touches only the set its type consumes from. -/
theorem frame_tag :
    Frame (tag.consumptionKeys (u32At out 1) ∪ ((orderFloorKeys ∪ landedKeys) ∪
      creditKeys (u32At out 1) ∪ {.book (u32At out 1)} ∪ (balanceKeys ∪ tapeKeys (u32At out 1))))
      st st' :=
  (frame_consumeRound_tag h.consumes).seq h.frame_finish

theorem bindingsAdmitted :
    BindingsAdmitted st (getU64 st (.lp (u32At out 1))) marketBandPct [] floors
      (decodeBindings r.trailer.bindings) := by
  have hauth := h.authorised
  unfold checkRoundAuth at hauth
  split_ifs at hauth
  exact bindingsAdmitted_of_checkBindings hauth

theorem book_hash : (commitment P (st.getD (.book (u32At out 1)))).val = r.trailer.bookHash := by
  have hauth := h.authorised
  unfold checkRoundAuth at hauth
  split_ifs at hauth with hhash
  exact not_not.mp hhash

/-- The round raises the order floor of every account it binds, and no other. -/
theorem floor_eq (account : UInt32) :
    getU64 st' (.sq account) =
      raisedFloor (decodeBindings r.trailer.bindings) account (getU64 st (.sq account)) := by
  have hmid : getU64 mid (.sq account) = getU64 st (.sq account) :=
    (frame_consumeRound h.consumes).getU64_eq (by simp)
  have hrunning : ∀ floors, runningFloor mid floors account = runningFloor st floors account := by
    intro floors
    unfold runningFloor
    rw [hmid]
  have hadmitted := h.bindingsAdmitted
  rw [h.finishes, (frame_applySettlement _ _ _ _ _ _).getU64_eq (by simp),
    getU64_set_ne _ _ (by simp), (Carry.frame_mint _ _ _).getU64_eq (by simp),
    acceptRound, (frame_markLanded _ _ _).getU64_eq (by simp),
    getU64_raiseOrderFloors hadmitted.nodup, hrunning, hadmitted.raised]
  rfl

theorem set_eq {key : Key} (hkey : tag.setKey (u32At out 1) = some key) :
    ∃ rest, consume (records setEntryLen (st.getD key)) (records setEntryLen r.consumed) =
      some rest ∧ st'.getD key = rest.flatten := by
  obtain ⟨rest, hrest, hmid⟩ := consumeRound_set h.consumes hkey
  have hkeys : key = .commits (u32At out 1) ∨ key = .encset (u32At out 1) := by
    cases tag with
    | reveal => exact Or.inl (Option.some.inj hkey).symm
    | encRound => exact Or.inr (Option.some.inj hkey).symm
    | _ => cases hkey
  refine ⟨rest, hrest, ?_⟩
  rw [← hmid]
  refine h.frame_finish.getD_eq ?_
  rcases hkeys with rfl | rfl <;> simp

theorem credits_eq (account : UInt32) :
    (Carry.credits st' (u32At out 1) account).toNat =
      min ((Carry.credits st (u32At out 1) account).toNat + (Carry.accounts r.carry).count account)
        (2 ^ 32 - 1) := by
  have hcredits : ∀ {st st' : Storage} {K : Set Key}, Frame K st st' →
      .cw (u32At out 1) account ∉ K →
      Carry.credits st' (u32At out 1) account = Carry.credits st (u32At out 1) account := by
    intro st st' K hframe hk
    rw [Carry.credits, Carry.credits, hframe.getU32?_eq hk]
  rw [h.finishes, hcredits (frame_applySettlement _ _ _ _ _ _) (by simp),
    hcredits (frame_set_self _ (.book (u32At out 1)) _) (by simp), Carry.credits_mint,
    hcredits (frame_acceptRound mid floors _ slot) (by simp),
    hcredits (frame_consumeRound h.consumes) (by simp)]

theorem book_eq : st'.getD (.book (u32At out 1)) = r.trailer.book := by
  rw [h.finishes, (frame_applySettlement _ _ _ _ _ _).getD_eq (by simp),
    getD_set_same]

/-- Balances, last price and volume are those of settling the round on the storage before it. -/
theorem ledger_eq :
    AgreeOn (balanceKeys ∪ tapeKeys (u32At out 1)) st'
      (applySettlement st (u32At out 5) (u32At out 9) (u32At out 1) r.settle
        r.trailer.bindings) := by
  have hbefore : AgreeOn (balanceKeys ∪ tapeKeys (u32At out 1))
      ((Carry.mint (acceptRound mid floors r.trailer.roundId slot) (u32At out 1) r.carry).set
        (.book (u32At out 1)) r.trailer.book) st := by
    refine ((((frame_consumeRound h.consumes).seq (frame_acceptRound mid floors _ slot)).seq
      (Carry.frame_mint _ _ _)).seq (frame_set_self _ _ _)).agreeOn ?_
    rintro k hk (⟨asset, account, rfl⟩ | rfl | rfl)
    all_goals
      simp at hk
  rw [h.finishes]
  exact agreeOn_applySettlement Set.subset_union_left hbefore _ _ _ (Or.inr (Or.inr rfl)) _ _

end RoundStep

end Jamswap.Service
