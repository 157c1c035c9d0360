import Jamswap.Builder.Simulation

/-!
# The resolver follows the protocol

Every turn of the pass over the released rounds, every judgement of the round in flight and every
step of the drain of the carry-retry queue is a move of the custody protocol; so is a pass or a
drain that a failed read stops half-way. Together: a sweep leads from a state between two steps to
another (`resolveRoundsOnce_spec`).
-/

namespace Jamswap.Builder

open Library Engine Service Prog

/-! ### Settling -/

section Settling

variable {fr : Round} {s s' : State} {b : Settlement} {new : List Bytes32} {c : Custody}

/-- Keys with commitments of their own are different keys. -/
theorem nodup_sealed {keys : List OKey} (h : (keys.filterMap OKey.commit).Nodup) :
    (keys.filter fun k ↦ k.commit ≠ none).Nodup := by
  induction keys with
  | nil => exact List.nodup_nil
  | cons k keys ih =>
    cases hk : k.commit with
    | none =>
      rw [List.filterMap_cons_none hk] at h
      rw [List.filter_cons_of_neg (by simp [hk])]
      exact ih h
    | some x =>
      rw [List.filterMap_cons_some hk, List.nodup_cons] at h
      rw [List.filter_cons_of_pos (by simp [hk]), List.nodup_cons]
      refine ⟨fun hmem ↦ h.1 ?_, ih h.2⟩
      exact List.mem_filterMap.mpr ⟨k, List.mem_of_mem_filter hmem, hk⟩

/-- What a finalized round hands out, it may. -/
theorem Receipted.maySettle (h : Receipted fr s s' b new) (hnodup : s'.seals.Nodup)
    (hseals : ∀ k ∈ c.seen, ∀ h, k.commit = some h → h ∈ s.seals) (hdue : c.due = c.retry)
    (sighted : Bool) : c.MaySettle (fr.holding sighted) fr.endsOnBook b where
  accounts := h.accounts
  sealed := h.sealed
  nodup := by
    rw [h.seals] at hnodup
    obtain ⟨commits, hperm, hsub⟩ := h.minted
    exact nodup_sealed (hperm.nodup_iff.mp (hnodup.of_append_left.sublist hsub))
  minted := by
    intro k hk hseen
    rw [h.seals] at hnodup
    obtain ⟨hmem, hcommit⟩ := Custody.mem_minted.mp hk
    obtain ⟨x, hx⟩ := Option.ne_none_iff_exists'.mp hcommit
    have hnew : x ∈ new :=
      h.minted.subset (List.mem_filterMap.mpr ⟨k, List.mem_append.mpr hmem, hx⟩)
    exact List.disjoint_of_nodup_append hnodup hnew (hseals k hseen x hx)
  due := hdue

/-- Finalizing hands the settlement out, once the decision is on record. -/
theorem Receipted.tracks (h : Receipted fr s s' b new) (ht : Tracks s c) :
    Tracks s' { c with
      queue := c.queue ++ b.queued
      retry := c.retry ++ b.retried
      due := c.due + b.retried
      ended := b.ended ++ c.ended
      rested := b.rested ++ c.rested
      seen := b.minted ++ c.seen
      receipts := (fr.holding fr.sighted).unclaimed ++ c.receipts } where
  view := by
    rw [h.view, ← ht.view]
  placed := ht.placed.trans h.placed.symm
  rested := by
    rw [h.rested, ← ht.rested]
  spent := ht.spent.trans h.spent.symm
  refs := ht.refs.trans h.refs.symm
  seals := by
    intro k hk x hx
    rw [h.seals]
    rcases List.mem_append.mp hk with hk | hk
    · refine List.mem_append_left _ (h.minted.subset (List.mem_filterMap.mpr ⟨k, ?_, hx⟩))
      exact List.mem_append.mpr (Custody.mem_minted.mp hk).1
    · exact List.mem_append_right _ (ht.seals k hk x hx)

end Settling

/-! ### Between programs -/

/-- Nothing is half done in the carry-retry queue. When `idle`, nothing is in a build's hands; when
`alone`, nothing is in flight. -/
structure Custody.Calm (idle alone : Bool) (c : Custody) : Prop where
  due : c.due = c.retry
  reposted : c.reposted = 0
  lapsed : c.lapsed = 0
  idle_eq : idle = true → c.held = 0 ∧ c.taken = [] ∧ c.spent = []
  alone_eq : alone = true → c.flight = none

/-- A pass over the records `tracked`: `todo` are still to come, `kept` stay watched and `dropped`
were let go of. -/
structure Turns (tracked todo kept : List ℕ) (dropped : List Holding) : Prop where
  nodup : todo.Nodup
  todo_tracked : ∀ r ∈ todo, r ∈ tracked
  total : ∀ r ∈ tracked, r ∈ todo ∨ r ∈ kept ∨ r ∈ dropped.map Holding.ref
  dropped_apart : ∀ r ∈ dropped.map Holding.ref, r ∉ todo
  kept_apart : ∀ r ∈ kept, r ∉ todo ∧ r ∉ dropped.map Holding.ref

variable {tracked todo kept : List ℕ} {dropped : List Holding} {r : ℕ}

theorem Turns.keep (h : Turns tracked (r :: todo) kept dropped) :
    Turns tracked todo (kept ++ [r]) dropped := by
  obtain ⟨hnodup, htracked, htotal, hdropped, hkept⟩ := h
  constructor <;> grind

theorem Turns.drop {z : Holding} (h : Turns tracked (z.ref :: todo) kept dropped) :
    Turns tracked todo kept (z :: dropped) := by
  obtain ⟨hnodup, htracked, htotal, hdropped, hkept⟩ := h
  constructor <;> grind

/-- In a pass over the released rounds, with `hands` in a build's hands at its start and `claimed`
claimed so far. -/
structure Custody.InPass (idle alone : Bool) (hands : Multiset OKey) (tracked todo kept : List ℕ)
    (claimed : List OKey) (dropped : List Holding) (c : Custody) : Prop where
  calm : c.Calm idle alone
  turns : Turns tracked todo kept dropped
  held : c.held = hands.filter fun k ↦ k ∉ claimed
  refs : c.released.map Holding.ref = tracked
  todo_done : ∀ r ∈ todo, r ∉ c.done
  todo_fresh : ∀ r ∈ todo, c.taken = [] ∨ r ∉ c.fresh
  done : ∀ r ∈ c.done, ∃ z ∈ dropped, z.sighted = true ∧ z.ref = r
  gone : ∀ z ∈ c.released, z.ref ∈ dropped.map Holding.ref → z.sighted = false ∨ z.ref ∈ c.done

variable {b : Settlement} {s : State} {c : Custody} {z : Round} {new : List Bytes32}

namespace Custody

section Turns

variable {idle alone : Bool} {hands : Multiset OKey} {tracked todo kept : List ℕ}
  {claimed : List OKey} {dropped : List Holding} {c : Custody} {z : Holding}

/-- A round kept as it is. -/
theorem InPass.keep (h : c.InPass idle alone hands tracked (r :: todo) kept claimed dropped) :
    c.InPass idle alone hands tracked todo (kept ++ [r]) claimed dropped :=
  { h with
    turns := h.turns.keep
    todo_done := fun r hr ↦ h.todo_done r (List.mem_cons_of_mem _ hr)
    todo_fresh := fun r hr ↦ h.todo_fresh r (List.mem_cons_of_mem _ hr) }

section

variable (h : c.InPass idle alone hands tracked (z.ref :: todo) kept claimed dropped)

include h

/-- An unsighted round no longer watched. -/
theorem InPass.letGo (hs : c.Sound) (hz : z ∈ c.released) (hsighted : z.sighted = false) :
    c.InPass idle alone hands tracked todo kept claimed (z :: dropped) :=
  { h.keep with
    turns := h.turns.drop
    done := fun r hr ↦ by
      obtain ⟨y, hy, hrest⟩ := h.done r hr
      exact ⟨y, List.mem_cons_of_mem _ hy, hrest⟩
    gone := by
      intro y hy href
      rcases List.mem_cons.mp href with href | href
      · rw [hs.eq_of_ref hy hz href]
        exact Or.inl hsighted
      · exact h.gone y hy href }

/-- Changing records in place, without touching the sighting of those let go. -/
theorem InPass.mapRecords {f g : Holding → Holding} (hg : ∀ x, (g x).SameRound x)
    (hsighted : ∀ x ∈ c.released, x.ref ≠ z.ref → (g x).sighted = x.sighted) :
    InPass idle alone hands tracked (z.ref :: todo) kept claimed dropped
      { c with flight := c.flight.map f, released := c.released.map g } :=
  { h with
    calm := { h.calm with
      alone_eq := fun hb ↦ by
        show c.flight.map f = none
        rw [h.calm.alone_eq hb]
        rfl }
    refs := by
      have hsame : (c.released.map g).map Holding.ref = c.released.map Holding.ref := by
        rw [List.map_map]
        exact List.map_congr_left fun x _ ↦ (hg x).ref
      exact hsame.trans h.refs
    gone := by
      intro y hy href
      obtain ⟨x, hx, rfl⟩ := List.mem_map.mp hy
      rw [(hg x).ref] at href ⊢
      have hne : x.ref ≠ z.ref := fun heq ↦ h.turns.dropped_apart _ href (heq ▸ List.mem_cons_self)
      rw [hsighted x hx hne]
      exact h.gone x hx href }

/-- A round seen landed. -/
theorem InPass.sight :
    (c.sight z).InPass idle alone hands tracked todo (kept ++ [z.ref]) (claimed ++ z.keys)
      dropped := by
  have hmap := (h.mapRecords (f := z.split id z.noteClaim)
    (g := z.split (Holding.setSighted true) z.noteClaim) (fun x ↦ z.sameRound_sight x true)
    (fun x _ hne ↦ by rw [split_of_ne hne]; rfl)).keep
  exact
    { hmap with
      calm := { hmap.calm with
        idle_eq := fun hb ↦ by
          obtain ⟨hheld, htaken, hspent⟩ := h.calm.idle_eq hb
          refine ⟨?_, htaken, hspent⟩
          show c.held.filter _ = 0
          rw [hheld, Multiset.filter_zero] }
      held := by
        show c.held.filter _ = _
        rw [h.held, Multiset.filter_filter]
        refine Multiset.filter_congr fun k _ ↦ ?_
        rw [List.mem_append, not_or, and_comm]
      todo_fresh := fun r hr ↦ by
        rcases hmap.todo_fresh r hr with htaken | hfresh
        · exact Or.inl htaken
        · refine Or.inr fun hmem ↦ ?_
          rcases List.mem_cons.mp hmem with rfl | hmem
          · exact (List.nodup_cons.mp h.turns.nodup).1 hr
          · exact hfresh hmem }

/-- A round whose landing was undone. -/
theorem InPass.unsight :
    (c.unsight z).InPass idle alone hands tracked todo (kept ++ [z.ref]) claimed dropped := by
  have hmap := (h.mapRecords (f := z.split id z.dropClaim)
    (g := z.split (Holding.setSighted false) z.dropClaim) (fun x ↦ z.sameRound_unsight x false)
    (fun x _ hne ↦ by rw [split_of_ne hne]; rfl)).keep
  exact { hmap with calm := { hmap.calm with } }

/-- A round finalized. -/
theorem InPass.settle (hsighted : z.sighted = true) :
    InPass idle alone hands tracked todo kept claimed (z :: dropped)
      { c.settle z b with done := z.ref :: c.done } := by
  have hturn := (List.nodup_cons.mp h.turns.nodup).1
  exact
    { h.keep with
      turns := h.turns.drop
      calm := { h.calm with
        due := by
          show c.due + b.retried = _
          rw [h.calm.due, Multiset.coe_add]
          rfl }
      todo_done := by
        intro r hr hdone
        rcases List.mem_cons.mp hdone with rfl | hdone
        · exact hturn hr
        · exact h.keep.todo_done r hr hdone
      done := by
        intro r hr
        rcases List.mem_cons.mp hr with rfl | hr
        · exact ⟨z, List.mem_cons_self, hsighted, rfl⟩
        · obtain ⟨y, hy, hrest⟩ := h.done r hr
          exact ⟨y, List.mem_cons_of_mem _ hy, hrest⟩
      gone := by
        intro y hy href
        rcases List.mem_cons.mp href with href | href
        · exact Or.inr (href ▸ List.mem_cons_self)
        · exact (h.gone y hy href).imp_right (List.mem_cons_of_mem _) }

end

end Turns

end Custody

/-! ### The pass over the released rounds -/

section Pass

variable {G : Incident → Prop} (H : Host)

theorem readOnly_confirmed (rid : Bytes32) (since now : Time) :
    ReadOnly (confirmed H rid since now) := by
  have hhold : ReadOnly (heldLongEnough H since now) := by
    refine ReadOnly.bind ?_ fun _ ↦ ReadOnly.pure _
    unfold settleHold
    split
    · exact ReadOnly.pure _
    · exact (ReadOnly.ask _).bind fun _ ↦ ReadOnly.pure _
  refine (readOnly_landedFinal H rid).attempt.bind fun final ↦ ?_
  split
  · exact ReadOnly.pure _
  · exact ReadOnly.pure _
  · split
    · exact hhold
    · exact (ReadOnly.ask _).bind fun _ ↦ ReadOnly.ite (ReadOnly.pure _) hhold
  · exact hhold

theorem readOnly_anyLanded (rounds : List Round) : ReadOnly (anyLanded H rounds) := by
  induction rounds with
  | nil => exact ReadOnly.pure _
  | cons r rounds ih =>
    exact (readOnly_landedSlot H r.rid).bind fun _ ↦ ReadOnly.ite (ReadOnly.pure _) ih

theorem readOnly_rivalLanded (fr : Round) : ReadOnly (rivalLanded H fr) :=
  ReadOnly.current.bind fun _ ↦ readOnly_anyLanded H _

variable {idle alone : Bool} {hands : Multiset OKey} {tracked todo kept : List ℕ}
  {claimed : List OKey}
  {dropped : List Holding}

/-- A record of the state is a record of its custody. -/
theorem Tracks.mem_released (ht : Tracks s c) (hz : z ∈ s.zombies) :
    z.holding z.sighted ∈ c.released := by
  exact ht.released ▸ List.mem_map_of_mem hz

variable (h : Reached G (fun s c ↦
  c.InPass idle alone hands tracked (z.ref :: todo) kept claimed dropped ∧ z ∈ s.zombies) s)

include h in
/-- A released round is first seen landed. -/
theorem Reached.claim {now : Time} (hunseen : z.sighted = false) :
    Reached G (fun _ c ↦ c.InPass idle alone hands tracked todo (kept ++ [z.ref])
        (claimed ++ z.keys) dropped)
      (((s.note (.sighted (z.holding z.sighted))).setZombie z.ref
        fun z ↦ { z with okSince := some now }).claim z) := by
  refine h.step (.noted rfl rfl rfl) ?_
  rintro c ht hs ⟨hpass, hz⟩ hlast
  have hmem := ht.mem_released hz
  have hG : G (.sighted (z.holding z.sighted) c.toView) := by
    rw [ht.view]
    exact hlast.trace _ List.mem_cons_self
  refine ⟨c.sight (z.holding z.sighted), ?_,
    Custody.InPass.sight (z := z.holding z.sighted) hpass,
    .single (.sight _ hmem hunseen hG)⟩
  refine { ht with view := ?_ }
  rw [view_claim, view_note _ rfl, ← ht.view]
  rfl

/-- A sighted round that the pass has come to has its turn. -/
theorem inTurn_of_pass (ht : Tracks s c) (hseen : z.sighted = true) (hz : z ∈ s.zombies)
    (hpass : c.InPass idle alone hands tracked (z.ref :: todo) kept claimed dropped) :
    c.InTurn (z.holding z.sighted) :=
  ⟨ht.mem_released hz, hseen, hpass.todo_done _ List.mem_cons_self,
    hpass.todo_fresh _ List.mem_cons_self⟩

include h in
/-- The landing of a released round is undone. -/
theorem Reached.unclaim (hseen : z.sighted = true) :
    Reached G (fun _ c ↦ c.InPass idle alone hands tracked todo (kept ++ [z.ref]) claimed dropped)
      (((s.note (.reverted (z.holding z.sighted))).setZombie z.ref
        fun z ↦ { z with okSince := none }).unclaim z) := by
  refine h.step (.noted rfl rfl rfl) ?_
  rintro c ht hs ⟨hpass, hz⟩ hlast
  have hturn := inTurn_of_pass ht hseen hz hpass
  have hG : G (.reverted (z.holding z.sighted) c.toView) := by
    rw [ht.view]
    exact hlast.trace _ List.mem_cons_self
  refine ⟨c.unsight (z.holding z.sighted), ?_,
    Custody.InPass.unsight (z := z.holding z.sighted) hpass,
    .single (.unsight _ hturn hG)⟩
  refine { ht with view := ?_ }
  rw [view_unclaim _ _ c (ht.view.trans (view_note _ rfl).symm)]

include h in
/-- A released round is finalized. -/
theorem Reached.finalized {s' : State} {b : Settlement} {new : List Bytes32}
    (hseen : z.sighted = true)
    (hb : Receipted z (s.note (.finalized (z.holding z.sighted) z.endsOnBook)) s' b new) :
    Reached G (fun _ c ↦ c.InPass idle alone hands tracked todo kept claimed
      (z.holding z.sighted :: dropped)) s' := by
  refine h.step ⟨hb.seals ▸ List.suffix_append _ _, hb.placed ▸ List.suffix_refl _,
    hb.trace ▸ List.suffix_cons _ _⟩ ?_
  rintro c ht hs ⟨hpass, hz⟩ hlast
  have hturn := inTurn_of_pass ht hseen hz hpass
  have hG : G (.finalized (z.holding z.sighted) z.endsOnBook c.toView) := by
    rw [ht.view]
    exact hlast.trace _ (hb.trace ▸ List.mem_cons_self)
  have hmay := hb.maySettle hlast.seals ht.seals hpass.calm.due z.sighted
  refine ⟨_, ?_, hpass.settle hseen,
    .single (.settleReleased _ _ b hturn hG hmay)⟩
  have hnoted : Tracks (s.note (.finalized (z.holding z.sighted) z.endsOnBook))
      { c with finals := z.rid :: c.finals } :=
    ⟨by rw [ht.view]; rfl, ht.placed, ht.rested, ht.spent, ht.refs, ht.seals⟩
  exact { hb.tracks hnoted with }

/-- One released round's turn. -/
theorem visitZombie_spec (now : Time) (z : Round) :
    Sat (Reached G fun s c ↦
      c.InPass idle alone hands tracked (z.ref :: todo) kept claimed dropped ∧
        z ∈ s.zombies)
      (visitZombie H now z)
      (fun out ↦ Reached G fun _ c ↦ c.InPass idle alone hands tracked todo
        (if out.1 then kept ++ [z.ref] else kept) (claimed ++ out.2)
        (if out.1 then dropped else z.holding z.sighted :: dropped))
      (Reached G fun _ c ↦
        c.InPass idle alone hands tracked (z.ref :: todo) kept claimed dropped) := by
  set P : State → Prop := Reached G fun s c ↦
    c.InPass idle alone hands tracked (z.ref :: todo) kept claimed dropped ∧ z ∈ s.zombies with hP
  have hkept : ∀ s, P s → Reached G (fun _ c ↦
      c.InPass idle alone hands tracked todo (kept ++ [z.ref]) (claimed ++ []) dropped) s :=
    fun s h ↦
    h.weaken fun c _ hc ↦ by
      rw [List.append_nil]
      exact hc.1.keep
  have hraise : ∀ s, P s → Reached G (fun _ c ↦
      c.InPass idle alone hands tracked (z.ref :: todo) kept claimed dropped) s := fun s h ↦
    h.weaken fun c _ hc ↦ hc.1
  unfold visitZombie
  refine Sat.ite (fun hold ↦ ?_) fun _ ↦ ?_
  · -- watched long enough without a landing
    refine Sat.pure fun s h ↦ ?_
    refine h.step (.of_eq rfl rfl rfl) fun c ht hs hc _ ↦ ⟨c, ht, ?_, .refl⟩
    have hunseen : z.sighted = false := by simp [Round.sighted, hold.1]
    rw [List.append_nil]
    exact Custody.InPass.letGo (z := z.holding z.sighted) hc.1 hs (ht.mem_released hc.2) hunseen
  · refine Sat.bind (Q := fun _ ↦ P)
      (Sat.attempt ((readOnly_landedSlot H z.rid).sat)) fun slot ↦ ?_
    split
    · exact Sat.pure hkept
    · next slot' hnone =>
      refine Sat.bind (Q := fun _ s ↦ ∃ s₀, P s₀ ∧
        s = s₀.note (.sighted (z.holding z.sighted))) (Sat.update fun s h ↦ ⟨s, h, rfl⟩) fun _ ↦ ?_
      refine Sat.bind (Q := fun _ ↦ Reached G fun _ c ↦
        c.InPass idle alone hands tracked todo (kept ++ [z.ref]) (claimed ++ z.keys)
          dropped) ?_ fun _ ↦
        Sat.pure fun s h ↦ h
      refine Sat.update ?_
      rintro s ⟨s₀, h, rfl⟩
      exact Reached.claim h (by simp [Round.sighted, hnone])
    · next slot' since hsome =>
      have hseen : z.sighted = true := by simp [Round.sighted, hsome]
      refine Sat.bind (Q := fun _ ↦ P)
        ((readOnly_confirmed H z.rid since now).sat.raising hraise) fun durable ↦ ?_
      refine Sat.ite (fun _ ↦ ?_) fun _ ↦ Sat.pure hkept
      refine Sat.bind (Q := fun _ ↦ P)
        ((readOnly_rivalLanded H z).sat.raising hraise) fun rival ↦ ?_
      refine Sat.ite (fun _ ↦ Sat.pure hkept) fun _ ↦ ?_
      refine Sat.bind (Q := fun _ s ↦ ∃ s₀, P s₀ ∧
        s = s₀.note (.finalized (z.holding z.sighted) z.endsOnBook))
        (Sat.update fun s h ↦ ⟨s, h, rfl⟩) fun _ ↦ ?_
      refine Sat.bind (Q := fun _ ↦ Reached G fun _ c ↦ c.InPass idle alone hands tracked todo
        kept claimed (z.holding z.sighted :: dropped)) ?_ fun _ ↦ Sat.pure fun s h ↦ ?_
      · refine Sat.attempt (Sat.ofEach ?_)
        rintro s ⟨s₀, h, rfl⟩
        refine (finalizeRound_spec H z _).conseq (fun _ hs ↦ hs) ?_ fun _ hfalse ↦ hfalse.elim
        rintro - s' ⟨b, new, hb⟩
        exact Reached.finalized h hseen hb
      · simpa using h
    · exact Sat.pure hkept
    · next since hsome =>
      refine Sat.bind (Q := fun _ s ↦ ∃ s₀, P s₀ ∧
        s = s₀.note (.reverted (z.holding z.sighted))) (Sat.update fun s h ↦ ⟨s, h, rfl⟩)
        fun _ ↦ ?_
      refine Sat.bind (Q := fun _ ↦ Reached G fun _ c ↦
        c.InPass idle alone hands tracked todo (kept ++ [z.ref]) claimed dropped) ?_ fun _ ↦
        Sat.pure fun s h ↦ ?_
      · refine Sat.update ?_
        rintro s ⟨s₀, h, rfl⟩
        exact Reached.unclaim h (by simp [Round.sighted, hsome])
      · simpa using h

/-- A pass stops at a failed read. -/
theorem Reached.passAborted
    (h : Reached G (fun _ c ↦ c.InPass idle alone hands tracked todo kept claimed dropped) s) :
    Reached G (fun _ c ↦ c.Calm idle alone ∧ c.done = [])
      (s.note fun _ ↦ .passAborted dropped) := by
  refine h.step (.noted rfl rfl rfl) ?_
  intro c ht hs hc hlast
  refine ⟨{ c with done := [] }, ?_, ⟨{ hc.calm with }, rfl⟩,
    .single (.abortPass dropped hc.done (hlast.trace _ List.mem_cons_self))⟩
  exact ⟨ht.view.trans (view_note _ rfl).symm, ht.placed, ht.rested, ht.spent, ht.refs, ht.seals⟩

theorem visitEach_spec (now : Time) (refs : List ℕ) :
    Sat (Reached G fun _ c ↦ c.InPass idle alone hands tracked refs kept claimed dropped)
      (visitEach H now refs dropped)
      (fun out ↦ Reached G fun _ c ↦ ∃ gone,
        c.InPass idle alone hands tracked [] (kept ++ out.1) (claimed ++ out.2) gone)
      (Reached G fun _ c ↦ c.Calm idle alone ∧ c.done = []) := by
  induction refs generalizing kept claimed dropped with
  | nil =>
    refine Sat.pure fun s h ↦ h.weaken fun c _ hc ↦ ⟨dropped, ?_⟩
    simpa using hc
  | cons ref refs ih =>
    unfold visitEach
    refine Sat.current fun t ↦ ?_
    cases hfind : t.zombies.find? fun z ↦ z.ref = ref with
    | none =>
      -- the turns to come are of tracked records, so this does not happen
      refine (@ih kept claimed dropped).weaken ?_
      rintro s ⟨h, rfl⟩
      refine h.weaken fun c ht hc ↦ ?_
      have hmem := hc.turns.todo_tracked ref List.mem_cons_self
      rw [← hc.refs, ht.released, List.map_map] at hmem
      obtain ⟨z, hz, href⟩ := List.mem_map.mp hmem
      simpa [show z.ref = ref from href] using List.find?_eq_none.mp hfind z hz
    | some z =>
      have href : z.ref = ref := by simpa using List.find?_some hfind
      have hz := List.mem_of_find?_eq_some hfind
      subst href
      refine Sat.bind (Q := fun out ↦ Reached G fun _ c ↦ c.InPass idle alone hands tracked refs
        (if out.1 then kept ++ [z.ref] else kept) (claimed ++ out.2)
        (if out.1 then dropped else z.holding z.sighted :: dropped)) ?_ fun out ↦ ?_
      · refine Sat.rescue ((visitZombie_spec H now z).weaken ?_)
          (Sat.update fun s h ↦ h.passAborted)
        rintro s ⟨h, rfl⟩
        exact h.weaken fun c _ hc ↦ ⟨hc, hz⟩
      · refine Sat.bind (@ih (if out.1 then kept ++ [z.ref] else kept) (claimed ++ out.2)
          (if out.1 then dropped else z.holding z.sighted :: dropped)) fun rest ↦
          Sat.pure fun s h ↦ h.weaken fun c _ ⟨gone, hc⟩ ↦ ⟨gone, ?_⟩
        cases hkeep : out.1 <;> simpa [hkeep] using hc

/-- The released rounds a pass let go of are dropped: it finalized them,
or they were not sighted. -/
theorem Reached.passClosed
    (h : Reached G (fun _ c ↦ ∃ gone, c.InPass idle alone hands tracked [] kept claimed gone) s) :
    Reached G (fun _ c ↦ c.Calm idle alone ∧ c.done = [] ∧
        c.held = hands.filter fun k ↦ k ∉ claimed)
      { s with zombies := s.zombies.filter fun z ↦ z.ref ∈ kept } := by
  refine h.step (.of_eq rfl rfl rfl) ?_
  rintro c ht hs ⟨gone, hc⟩ hlast
  refine ⟨{ c with released := c.released.filter fun z ↦ z.ref ∈ kept, done := [] }, ?_,
    ⟨{ hc.calm with }, rfl, hc.held⟩, Relation.ReflTransGen.single
      (.closePass _ List.filter_sublist (fun z hz ↦ ?_) fun z hz hdone ↦ ?_)⟩
  · refine { ht with view := ?_ }
    refine (congrArg (fun v : View ↦
      { v with released := v.released.filter fun z ↦ z.ref ∈ kept }) ht.view).trans ?_
    simp only [State.view, List.filter_map]
    rfl
  · rcases hc.turns.total z.ref (hc.refs ▸ List.mem_map_of_mem hz) with htodo | hkept | hgone
    · cases htodo
    · exact Or.inl (List.mem_filter.mpr ⟨hz, by simpa using hkept⟩)
    · exact Or.inr (hc.gone z hz hgone)
  · obtain ⟨hmem, hkept⟩ := List.mem_filter.mp hz
    obtain ⟨y, hy, -, href⟩ := hc.done z.ref hdone
    exact (hc.turns.kept_apart z.ref (by simpa using hkept)).2 (href ▸ List.mem_map_of_mem hy)

/-- `resolveZombies` leaves a build, if one runs, what it did not claim. -/
theorem resolveZombies_spec (now : Time) :
    Sat (Reached G fun _ c ↦ c.Calm idle alone ∧ c.done = [] ∧ c.held = hands ∧
        (c.taken = [] ∨ c.fresh = []))
      (resolveZombies H now)
      (fun claimed ↦ Reached G fun _ c ↦ c.Calm idle alone ∧ c.done = [] ∧
        c.held = hands.filter fun k ↦ k ∉ claimed)
      (Reached G fun _ c ↦ c.Calm idle alone ∧ c.done = []) := by
  unfold resolveZombies
  refine Sat.current fun t ↦ ?_
  refine Sat.bind (Q := fun out ↦ Reached G fun _ c ↦ ∃ gone, c.InPass idle alone hands
    (t.zombies.map Round.ref) [] out.1 out.2 gone) ?_ fun out ↦ ?_
  · have hvisit := @visitEach_spec G H idle alone hands (t.zombies.map Round.ref) [] [] [] now
      (t.zombies.map Round.ref)
    refine hvisit.weaken ?_
    rintro s ⟨h, rfl⟩
    refine h.step (.of_eq rfl rfl rfl) fun c ht hs hc _ ↦ ⟨c, ht, ?_, .refl⟩
    obtain ⟨hcalm, hdone, hheld, hfresh⟩ := hc
    have hrefs : c.released.map Holding.ref = s.zombies.map Round.ref := by
      rw [ht.released, List.map_map]
      rfl
    exact
      { calm := hcalm
        turns := by
          constructor
          · exact hrefs ▸ hs.refs_nodup
          all_goals simp
        held := by simpa using hheld
        refs := hrefs
        todo_done := fun r _ ↦ by simp [hdone]
        todo_fresh := fun r _ ↦ hfresh.imp_right fun hnil ↦ by simp [hnil]
        done := fun r hr ↦ by simp [hdone] at hr
        gone := fun z _ hz ↦ by cases hz }
  · refine Sat.bind (Sat.update fun s h ↦ h.passClosed) fun _ ↦ Sat.pure fun s h ↦ h

end Pass

/-- Between two steps of the builder. -/
structure Custody.Idle (c : Custody) : Prop where
  calm : c.Calm true false
  done : c.done = []

/-- The builder is between two steps. -/
abbrev AtRest (G : Incident → Prop) : State → Prop := Reached G fun _ c ↦ c.Idle

/-! ### The round in flight -/

section Flight

variable {G : Incident → Prop} (H : Host) {s s' : State} {fr fr' : Round}

/-- A change of the round's own clock readings. -/
theorem Reached.patchFlight (h : AtRest G s) (hfr : s.inflight = some fr)
    (hsame : fr'.holding false = fr.holding false) :
    AtRest G { s with inflight := some fr' } := by
  refine h.silent ?_ rfl rfl rfl rfl (List.suffix_refl _) (List.suffix_refl _) fun _ _ hc ↦ hc
  simp only [State.view, State.ended, hfr, Option.map_some, hsame]

theorem readOnly_anyFloorPast (seqs : List (UInt32 × UInt64)) : ReadOnly (anyFloorPast H seqs) := by
  induction seqs with
  | nil => exact ReadOnly.pure _
  | cons entry seqs ih =>
    exact (readOnly_mstate H _).bind fun _ ↦ ReadOnly.ite (ReadOnly.pure _) ih

theorem readOnly_roundDead (fr : Round) : ReadOnly (roundDead H fr) := by
  have hfloors : ReadOnly (floorsPast H fr) :=
    (readOnly_anyFloorPast H _).bind fun _ ↦ ReadOnly.pure _
  refine (ReadOnly.ask _).bind fun _ ↦ ReadOnly.ite (ReadOnly.pure _) (ReadOnly.ite hfloors ?_)
  exact (ReadOnly.ask _).bind fun _ ↦ ReadOnly.ite (ReadOnly.pure _) hfloors

theorem evict_sublist (fuel : ℕ) (zombies : List Round) :
    (evict fuel zombies).Sublist zombies := by
  induction fuel generalizing zombies with
  | zero => exact List.Sublist.refl _
  | succ fuel ih =>
    rw [evict]
    split
    · exact (ih _).trans List.eraseP_sublist
    · exact List.Sublist.refl _

/-- Only unsighted rounds are forgotten. -/
theorem mem_evict {fuel : ℕ} {zombies : List Round} {z : Round} (hz : z ∈ zombies)
    (hsighted : z.sighted = true) : z ∈ evict fuel zombies := by
  induction fuel generalizing zombies with
  | zero => exact hz
  | succ fuel ih =>
    rw [evict]
    split
    · exact ih ((List.mem_eraseP_of_neg (by simp [hsighted])).mpr hz)
    · exact hz

theorem view_abandon (why : Release) (now : Time) : (s.abandon H fr why now).view =
    { s.view with
      flight := none
      queue := (fr.holding false).unclaimed ++ s.view.queue
      released := (evict (s.zombies.length + 1) (s.zombies ++
        [{ fr with ref := s.refs, abandonedAt := now, okSince := none }])).map
          fun z ↦ z.holding z.sighted } := by
  have hqueue : (fr.unclaimed fr.orders ++ s.pending).map Order.key =
      (fr.holding false).unclaimed ++ s.pending.map Order.key := by
    simp only [Holding.unclaimed, Round.holding, Round.keys, Round.unclaimed, List.map_append,
      List.filter_map]
    rfl
  simp only [State.view, ← hqueue]
  unfold State.abandon
  simp only [List.length_append, List.length_singleton]
  split <;> rfl

theorem flight_of_tracks (ht : Tracks s c) (hfr : s.inflight = some fr')
    (hsame : fr'.holding false = fr.holding false) : c.flight = some (fr.holding false) := by
  rw [show c.flight = s.inflight.map _ from congrArg View.flight ht.view, hfr]
  exact congrArg some hsame

/-- The round in flight is released. -/
theorem Reached.abandoned (h : AtRest G s) (hfr : s.inflight = some fr')
    (hsame : fr'.holding false = fr.holding false) (why : Release) (now : Time) :
    AtRest G (s.abandon H fr why now) := by
  have hother : (s.abandon H fr why now).seals = s.seals ∧
      (s.abandon H fr why now).placed = s.placed ∧ (s.abandon H fr why now).trace = s.trace ∧
      (s.abandon H fr why now).rested = s.rested ∧
      (s.abandon H fr why now).endedKeys = s.endedKeys ∧
      (s.abandon H fr why now).refs = s.refs + 1 := by
    unfold State.abandon
    split <;> exact ⟨rfl, rfl, rfl, rfl, rfl, rfl⟩
  obtain ⟨hseals, hplaced, htrace, hrested, hspent, hrefs⟩ := hother
  refine h.step ⟨hseals ▸ List.suffix_refl _, hplaced ▸ List.suffix_refl _,
    htrace ▸ List.suffix_refl _⟩ ?_
  intro c ht hs hc hlast
  have hflight := flight_of_tracks ht hfr hsame
  have hreleased : c.released ++ [{ fr.holding false with ref := c.refs, sighted := false }] =
      (s.zombies ++ [{ fr with ref := s.refs, abandonedAt := now, okSince := none }]).map
        fun z : Round ↦ z.holding z.sighted := by
    rw [List.map_append, ht.refs,
      show c.released = s.zombies.map _ from congrArg View.released ht.view]
    rfl
  set left := evict (s.zombies.length + 1) (s.zombies ++
    [{ fr with ref := s.refs, abandonedAt := now, okSince := none }]) with hleft
  refine ⟨{ c.release (fr.holding false) with
    released := left.map fun z : Round ↦ z.holding z.sighted }, ?_,
    ⟨{ hc.calm with alone_eq := fun hb ↦ (by cases hb) }, hc.done⟩, ?_⟩
  · refine ⟨?_, ht.placed.trans hplaced.symm, ht.rested.trans hrested.symm,
      ht.spent.trans hspent.symm, ?_, fun k hk x hx ↦ hseals ▸ ht.seals k hk x hx⟩
    · rw [view_abandon, ← ht.view]
      rfl
    · rw [hrefs, ← ht.refs]
      rfl
  · refine (Relation.ReflTransGen.single (.release _ hflight)).tail (.forget _ ?_ ?_)
    · show (left.map _).Sublist (c.released ++ _)
      rw [hreleased]
      exact (evict_sublist _ _).map _
    · show ∀ z ∈ c.released ++ _, _
      rw [hreleased]
      intro z hz
      obtain ⟨r, hr, rfl⟩ := List.mem_map.mp hz
      cases hsighted : r.sighted with
      | false => exact Or.inr rfl
      | true => exact Or.inl (List.mem_map.mpr ⟨r, mem_evict hr hsighted, by rw [hsighted]⟩)

/-- The round in flight is finalized. -/
theorem Reached.settled {b : Settlement} {new : List Bytes32}
    (h : AtRest G s)
    (hb : Receipted fr { s.note (.settled (fr.holding false) fr.endsOnBook) with inflight := none }
      s' b new)
    (hfr : s.inflight = some fr') (hsame : fr'.holding false = fr.holding false) :
    AtRest G s' := by
  refine h.step ⟨hb.seals ▸ List.suffix_append _ _, hb.placed ▸ List.suffix_refl _,
    hb.trace ▸ List.suffix_cons _ _⟩ ?_
  intro c ht hs hc hlast
  have hflight := flight_of_tracks ht hfr hsame
  have hG : G (.settled (fr.holding false) fr.endsOnBook c.toView) := by
    rw [ht.view]
    exact hlast.trace _ (hb.trace ▸ List.mem_cons_self)
  have hmay := hb.maySettle hlast.seals ht.seals hc.calm.due false
  refine ⟨_, ?_, ?_, .single (.settleFlight _ _ b hflight hG hmay)⟩
  · have hnoted : Tracks { s.note (.settled (fr.holding false) fr.endsOnBook) with
        inflight := none } { c with finals := fr.rid :: c.finals, flight := none } :=
      ⟨by rw [ht.view]; rfl, ht.placed, ht.rested, ht.spent, ht.refs, ht.seals⟩
    exact { hb.tracks hnoted with }
  · refine ⟨{ hc.calm with due := ?_, alone_eq := fun hb ↦ (by cases hb) }, hc.done⟩
    show c.due + b.retried = _
    rw [hc.calm.due, Multiset.coe_add]
    rfl

/-- Judging the round in flight. -/
theorem resolveInflight_spec (now : Time) (fr : Round) :
    Sat (fun s ↦ AtRest G s ∧ s.inflight = some fr) (resolveInflight H now fr)
      (fun _ ↦ AtRest G) (AtRest G) := by
  unfold resolveInflight
  refine Sat.bind (Q := fun _ s ↦ AtRest G s ∧ s.inflight = some fr)
    (Sat.attempt (ReadOnly.sat ?_)) fun judged ↦ ?_
  · exact (readOnly_roundDead H fr).bind fun _ ↦ (readOnly_landedSlot H _).bind fun _ ↦
      ReadOnly.pure _
  split
  · exact Sat.pure fun s h ↦ h.1
  · exact Sat.update fun s h ↦ h.1.patchFlight h.2 rfl
  · next since _ =>
    refine Sat.bind (Q := fun _ s ↦ AtRest G s ∧
      s.inflight = some { fr with deadSince := none })
      (Sat.update fun s h ↦ ⟨h.1.patchFlight h.2 rfl, rfl⟩) fun _ ↦ ?_
    refine Sat.bind ((readOnly_confirmed H fr.rid since now).sat.raising
      fun _ h ↦ h.1) fun durable ↦ ?_
    refine Sat.ite (fun _ ↦ ?_) fun _ ↦ Sat.pure fun s h ↦ h.1
    refine Sat.bind ((readOnly_rivalLanded H fr).sat.raising fun _ h ↦ h.1) fun rival ↦ ?_
    refine Sat.ite (fun _ ↦ Sat.pure fun s h ↦ h.1) fun _ ↦ ?_
    refine Sat.bind (Q := fun _ s ↦ ∃ s₀, (AtRest G s₀ ∧
      s₀.inflight = some { fr with deadSince := none }) ∧
      s = s₀.note (.settled (fr.holding false) fr.endsOnBook))
      (Sat.update fun s h ↦ ⟨s, h, rfl⟩) fun _ ↦ ?_
    refine Sat.bind (Q := fun _ s ↦ ∃ s₀, (AtRest G s₀ ∧
      s₀.inflight = some { fr with deadSince := none }) ∧
      s = { s₀.note (.settled (fr.holding false) fr.endsOnBook) with inflight := none })
      (Sat.update ?_) fun _ ↦ ?_
    · rintro s ⟨s₀, h, rfl⟩
      exact ⟨s₀, h, rfl⟩
    · refine Sat.bind (Q := fun _ ↦ AtRest G)
        (Sat.attempt (Sat.ofEach ?_)) fun _ ↦ Sat.pure fun s h ↦ h
      rintro s ⟨s₀, ⟨h, hfr⟩, rfl⟩
      refine (finalizeRound_spec H fr _).conseq (fun _ hs ↦ hs) ?_ fun _ hfalse ↦ hfalse.elim
      rintro - s' ⟨b, new, hb⟩
      exact h.settled hb hfr rfl
  · exact Sat.update fun s h ↦ h.1.patchFlight h.2 rfl
  · next why _ =>
    refine Sat.ite (fun _ ↦ ?_) fun _ ↦ ?_
    · exact Sat.update fun s h ↦ h.1.abandoned H h.2 rfl why now
    · exact Sat.update fun s h ↦ h.1.patchFlight h.2 rfl
  · refine Sat.ite (fun _ ↦ ?_) fun _ ↦ ?_
    · have hsame : fr.holding false = Round.holding { fr with deadSince := none } false := rfl
      exact Sat.update fun s h ↦ h.1.abandoned H h.2 hsame .timeout now
    · exact Sat.update fun s h ↦ h.1.patchFlight h.2 rfl

end Flight

/-! ### The carry-retry queue -/

/-- In a drain of the carry-retry queue: `done` are behind it, of which `kept` stay, and `rest` is
to come. -/
structure Custody.InDrain (done kept rest : List Order) (reposted lapsed : List OKey)
    (c : Custody) : Prop where
  due : c.due = ((kept ++ rest).map Order.key : List OKey)
  reposted_eq : c.reposted = reposted
  lapsed_eq : c.lapsed = lapsed
  behind : (done.map Order.key : Multiset OKey) = (kept.map Order.key : List OKey) +
    reposted + lapsed
  idle : c.held = 0 ∧ c.taken = [] ∧ c.spent = []
  pass : c.done = []

section Drain

variable {G : Incident → Prop} (H : Host) {done kept rest : List Order}
  {reposted lapsed : List OKey}
  {s s' : State} {r r' : Order}

/-- The queue with its next remainder first. -/
theorem Custody.InDrain.due_cons (h : c.InDrain done kept (r :: rest) reposted lapsed) :
    c.due = r.key ::ₘ ((kept ++ rest).map Order.key : List OKey) := by
  rw [h.due, Multiset.cons_coe, Multiset.coe_eq_coe, List.map_append, List.map_append,
    List.map_cons]
  exact List.perm_middle

theorem Custody.InDrain.keep (h : c.InDrain done kept (r :: rest) reposted lapsed) :
    c.InDrain (done ++ [r]) (kept ++ [r]) rest reposted lapsed :=
  { h with
    due := by
      rw [h.due]
      simp
    behind := by
      rw [List.map_append, List.map_append, ← Multiset.coe_add, ← Multiset.coe_add, h.behind]
      ac_rfl }

section

variable (h : Reached G (fun _ c ↦ c.InDrain done kept (r :: rest) reposted lapsed) s)

include h

/-- The seal of the next remainder was asked for. -/
theorem Reached.resealed (hnew : Resealed r r' new) :
    Reached G (fun _ c ↦ c.InDrain done kept (r' :: rest) reposted lapsed)
      { s with seals := new ++ s.seals } := by
  obtain ⟨hpair, ⟨rfl, rfl⟩ | ⟨hbare, x, rfl, hx⟩⟩ := hnew
  · exact h
  refine h.step ⟨List.suffix_cons _ _, List.suffix_refl _, List.suffix_refl _⟩ ?_
  intro c ht hs hc hlast
  have hfresh : x ∉ s.seals := (List.nodup_cons.mp hlast.seals).1
  have hseen : r'.key ∉ c.seen := fun hmem ↦ hfresh (ht.seals _ hmem x hx)
  refine ⟨{ c with due := r'.key ::ₘ c.due.erase r.key, seen := r'.key :: c.seen }, ?_, ?_,
    .single (.reseal r.key r'.key hc.idle.2.1 ?_ hbare hpair ?_ hseen)⟩
  · refine ⟨ht.view, ht.placed, ht.rested, ht.spent, ht.refs, ?_⟩
    intro k hk y hy
    rcases List.mem_cons.mp hk with rfl | hk
    · have heq : x = y := Option.some.inj (hx.symm.trans hy)
      exact heq ▸ List.mem_cons_self
    · exact List.mem_cons_of_mem _ (ht.seals k hk y hy)
  · refine { hc with due := ?_ }
    show r'.key ::ₘ c.due.erase r.key = _
    rw [hc.due_cons, Multiset.erase_cons_head, Multiset.cons_coe, Multiset.coe_eq_coe,
      List.map_append, List.map_append, List.map_cons]
    exact List.perm_middle.symm
  · rw [hc.due_cons]
    exact Multiset.mem_cons_self _ _
  · rw [show r'.key.commit = r'.commit from rfl, hx]
    exact Option.some_ne_none x

/-- The next remainder is posted and queued. -/
theorem Reached.repost (hsealed : r.commit ≠ none) :
    Reached G (fun _ c ↦ c.InDrain (done ++ [r]) kept rest (r.key :: reposted) lapsed)
      { s with pending := s.pending ++ [r] } := by
  refine h.step (.of_eq rfl rfl rfl) ?_
  intro c ht hs hc hlast
  have hmem : r.key ∈ c.due := hc.due_cons ▸ Multiset.mem_cons_self _ _
  refine ⟨_, ?_, ?_, .single (.repost r.key hc.idle.2.1 hmem hsealed)⟩
  · refine { ht with view := ?_ }
    refine (congrArg (fun v : View ↦ { v with queue := v.queue ++ [r.key] }) ht.view).trans ?_
    simp only [State.view, List.map_append]
    rfl
  · refine { hc with due := ?_, reposted_eq := ?_, behind := ?_ }
    · show c.due.erase r.key = _
      rw [hc.due_cons, Multiset.erase_cons_head]
    · show r.key ::ₘ c.reposted = _
      rw [hc.reposted_eq]
      rfl
    · rw [List.map_append, ← Multiset.coe_add, hc.behind, ← Multiset.cons_coe,
        ← Multiset.singleton_add]
      show _ + ({r.key} : Multiset OKey) = _
      ac_rfl

/-- The next remainder has expired. -/
theorem Reached.lapse :
    Reached G (fun _ c ↦ c.InDrain (done ++ [r]) kept rest reposted (r.key :: lapsed))
      (s.log (.terminal r.pair .cancelled)) := by
  refine h.step (.of_eq rfl rfl rfl) ?_
  intro c ht hs hc hlast
  have hmem : r.key ∈ c.due := hc.due_cons ▸ Multiset.mem_cons_self _ _
  refine ⟨_, ?_, ?_, .single (.lapse r.key hc.idle.2.1 hmem)⟩
  · refine { ht with view := ?_ }
    exact congrArg (fun v : View ↦ { v with ended := r.pair :: v.ended }) ht.view
  · refine { hc with due := ?_, lapsed_eq := ?_, behind := ?_ }
    · show c.due.erase r.key = _
      rw [hc.due_cons, Multiset.erase_cons_head]
    · show r.key ::ₘ c.lapsed = _
      rw [hc.lapsed_eq]
      rfl
    · rw [List.map_append, ← Multiset.coe_add, hc.behind, ← Multiset.cons_coe,
        ← Multiset.singleton_add]
      show _ + ({r.key} : Multiset OKey) = _
      ac_rfl

/-- The drain stops at a failed read. -/
theorem Reached.drainAborted :
    AtRest G ({ s with carryRetry := done ++ r :: rest }.note fun _ ↦
      .drainAborted reposted lapsed) := by
  refine h.step (.noted rfl rfl rfl) ?_
  intro c ht hs hc hlast
  have hretry : (((done ++ r :: rest).map Order.key : List OKey) : Multiset OKey) =
      c.due + reposted + lapsed := by
    rw [hc.due, List.map_append, List.map_append, ← Multiset.coe_add, ← Multiset.coe_add, hc.behind]
    ac_rfl
  refine ⟨_, ?_, ?_, .single (.abortDrain ((done ++ r :: rest).map Order.key)
    reposted lapsed hc.reposted_eq hc.lapsed_eq hretry (hlast.trace _ List.mem_cons_self))⟩
  · refine { ht with view := ?_ }
    rw [view_note _ rfl]
    exact congrArg (fun v : View ↦ { v with retry := (done ++ r :: rest).map Order.key }) ht.view
  · exact ⟨⟨rfl, rfl, rfl, fun _ ↦ hc.idle, fun hb ↦ (by cases hb)⟩, hc.pass⟩

end

/-- The loop of the drain. -/
theorem drainEach_spec (now : Time) (rest : List Order) :
    Sat (Reached G fun _ c ↦ c.InDrain done kept rest reposted lapsed)
      (drainEach H now done kept reposted lapsed rest)
      (fun kept' ↦ Reached G fun _ c ↦ ∃ done' reposted' lapsed',
        c.InDrain done' kept' [] reposted' lapsed')
      (AtRest G) := by
  induction rest generalizing done kept reposted lapsed with
  | nil => exact Sat.pure fun s h ↦ h.weaken fun c _ hc ↦ ⟨_, _, _, hc⟩
  | cons r rest ih =>
    unfold drainEach
    refine Sat.current fun t ↦ ?_
    refine Sat.ite (fun _ ↦ ?_) fun _ ↦ ?_
    · refine Sat.bind (Q := fun _ ↦ Reached G fun _ c ↦
        c.InDrain done kept (r :: rest) reposted lapsed)
        (Sat.attempt ((readOnly_mstate H _).sat.conseq (fun _ h ↦ h.1) (fun _ _ h ↦ h)
          fun _ h ↦ h)) fun price ↦ ?_
      cases price with
      | none =>
        exact Sat.bind (Q := fun _ ↦ AtRest G)
          (Sat.update fun s h ↦ h.drainAborted) fun _ ↦ Sat.raise fun s h ↦ h
      | some price => exact Sat.bind (Sat.update fun s h ↦ h.lapse) fun _ ↦ ih
    · refine Sat.bind (Q := fun out ↦ fun s ↦ Reached G (fun _ c ↦
        c.InDrain done kept (out.1 :: rest) reposted lapsed) s ∧
        (out.2 = true → out.1.commit ≠ none)) ?_ fun out ↦ ?_
      · refine Sat.ofEach ?_
        rintro s ⟨h, -⟩
        refine (postCarrySeal_spec H r s).conseq (fun _ hs ↦ hs) ?_ fun _ hfalse ↦ hfalse.elim
        rintro out s' ⟨new, rfl, hre, hsent⟩
        exact ⟨h.resealed hre, hsent⟩
      · refine Sat.ite (fun hsent ↦ ?_) fun _ ↦ ?_
        · refine Sat.bind (Q := fun _ ↦ Reached G fun _ c ↦
            c.InDrain (done ++ [out.1]) kept rest (out.1.key :: reposted) lapsed)
            (Sat.update fun s h ↦ h.1.repost (h.2 hsent)) fun _ ↦ ih
        · exact ih.weaken fun s h ↦ h.1.weaken fun c _ hc ↦ hc.keep

/-- The drain of the carry-retry queue. -/
theorem drainCarryRetry_spec (now : Time) :
    Sat (AtRest G) (drainCarryRetry H now) (fun _ ↦ AtRest G) (AtRest G) := by
  unfold drainCarryRetry
  refine Sat.current fun t ↦ ?_
  refine Sat.bind ((drainEach_spec H now t.carryRetry).weaken ?_) fun kept ↦ Sat.update fun s h ↦ ?_
  · rintro s ⟨h, rfl⟩
    refine h.weaken fun c ht hc ↦ ?_
    exact
      { due := hc.calm.due.trans (congrArg _ (congrArg View.retry ht.view))
        reposted_eq := hc.calm.reposted
        lapsed_eq := hc.calm.lapsed
        behind := rfl
        idle := hc.calm.idle_eq rfl
        pass := hc.done }
  · refine h.step (.of_eq rfl rfl rfl) ?_
    rintro c ht hs ⟨done, reposted, lapsed, hc⟩ hlast
    have hdue : c.due = (kept.map Order.key : List OKey) := by simpa using hc.due
    refine ⟨_, ?_, ?_, .single (.closeDrain (kept.map Order.key) hdue)⟩
    · refine { ht with view := ?_ }
      exact congrArg (fun v : View ↦ { v with retry := kept.map Order.key }) ht.view
    · exact ⟨⟨hdue, rfl, rfl, fun _ ↦ hc.idle, fun hb ↦ (by cases hb)⟩, hc.pass⟩

/-- One sweep of the resolver. -/
theorem resolveRoundsOnce_spec :
    Sat (AtRest G) (resolveRoundsOnce H) (fun _ ↦ AtRest G) (AtRest G) := by
  unfold resolveRoundsOnce
  refine Sat.bind (readOnly_time H).sat fun now ↦ ?_
  refine Sat.bind (drainCarryRetry_spec H now) fun _ ↦ ?_
  refine Sat.bind (readOnly_time H).sat fun t ↦ ?_
  refine Sat.bind (Q := fun _ ↦ AtRest G) ?_ fun _ ↦ ?_
  · refine (@resolveZombies_spec G H true false 0 t).conseq ?_ ?_ ?_
    · exact fun s h ↦ h.weaken fun c _ hc ↦
        ⟨hc.calm, hc.done, (hc.calm.idle_eq rfl).1, Or.inl (hc.calm.idle_eq rfl).2.1⟩
    · exact fun _ s h ↦ h.weaken fun c _ hc ↦ ⟨hc.1, hc.2.1⟩
    · exact fun s h ↦ h.weaken fun c _ hc ↦ ⟨hc.1, hc.2⟩
  · refine Sat.current fun s₀ ↦ ?_
    cases hfr : s₀.inflight with
    | none => exact Sat.pure fun s h ↦ h.1
    | some fr =>
      refine (resolveInflight_spec H t fr).weaken ?_
      rintro s ⟨h, rfl⟩
      exact ⟨h, hfr⟩

end Drain

end Jamswap.Builder
