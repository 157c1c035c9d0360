import Jamswap.Builder.Protocol

/-!
# No order is lost

Along any moves where a released round is finalized alone, that is, with no other sighted released
round sharing an order with it, every placed order is accounted for (`Custody.Kept`): it is over,
rests on the book, or someone keeps it under a key that no finalized round settled. The condition is
needed: two sighted rounds that claim one order from each other leave it to one another when they
are finalized, and nobody receipts it.
-/

namespace Jamswap.Builder

open Library Engine

/-- No other released round that is sighted shares an order with `z`. -/
def View.Alone (v : View) (z : Holding) : Prop :=
  ∀ y ∈ v.released, y.ref ≠ z.ref → y.sighted = true → ¬ z.Shares y

/-- Released rounds are finalized alone. -/
def FinalizedAlone : Incident → Prop
  | .finalized z _ v => v.Alone z
  | _ => True

variable {k : OKey} {z x : Holding} {book : List Pair} {b : Settlement}

namespace Custody

/-- Someone keeps the order: it is queued, in a build's hands, in flight, in a released round that
is sighted, or owed by the carry-retry queue. -/
inductive Keeps (c : Custody) (k : OKey) : Prop
  | queue (h : k ∈ c.queue)
  | held (h : k ∈ c.held)
  | flight (x : Holding) (hx : c.flight = some x) (h : k ∈ x.keys)
  | released (z : Holding) (hz : z ∈ c.released) (hsighted : z.sighted = true) (h : k ∈ z.keys)
  | due (h : k ∈ c.due)

/-- An order is accounted for: it is over, rests on the book, is an unsealed remainder, or is kept
under a key that no finalized round settled. -/
inductive Accounted (c : Custody) (p : Pair) : Prop
  | ended (h : p ∈ c.ended)
  | rested (h : p ∈ c.rested)
  | bare (k : OKey) (hk : k ∈ c.due) (hbare : k.commit = none) (hpair : k.pair = p)
  | live (k : OKey) (hk : c.Keeps k) (hnew : k ∉ c.receipts) (hpair : k.pair = p)

/-- Every placed order is accounted for. -/
structure Kept (c : Custody) : Prop where
  /-- what a record marks as claimed is settled, or held by the sighted round that claimed it -/
  claims : ∀ x, c.flight = some x ∨ x ∈ c.released → ∀ k ∈ x.keys, ∀ r, x.claimed k = some r →
    k ∈ c.receipts ∨ ∃ y ∈ c.released, y.sighted = true ∧ y.ref ≠ x.ref ∧ y.rid = r ∧ k ∈ y.keys
  done : ∀ z ∈ c.released, z.ref ∈ c.done → ∀ k ∈ z.keys, k ∈ c.receipts
  placed : ∀ p ∈ c.placed, c.Accounted p

variable {c d : Custody}

/-- Who keeps an order goes on keeping it when no container gives anything up. -/
theorem Keeps.mono (h : c.Keeps k) (hqueue : c.queue ⊆ d.queue) (hheld : ∀ k ∈ c.held, k ∈ d.held)
    (hflight : ∀ x, c.flight = some x → d.flight = some x)
    (hreleased : ∀ z ∈ c.released, z.sighted = true → z ∈ d.released)
    (hdue : ∀ k ∈ c.due, k ∈ d.due) : d.Keeps k := by
  cases h with
  | queue h => exact .queue (hqueue h)
  | held h => exact .held (hheld k h)
  | flight x hx h => exact .flight x (hflight x hx) h
  | released z hz hsighted h => exact .released z (hreleased z hz hsighted) hsighted h
  | due h => exact .due (hdue k h)

/-- To account for every order after a move, account for the ones someone kept before it. -/
theorem Accounted.transfer {p : Pair} (h : c.Accounted p) (hended : c.ended ⊆ d.ended)
    (hrested : c.rested ⊆ d.rested)
    (hbare : ∀ k ∈ c.due, k.commit = none → d.Accounted k.pair)
    (hkeeps : ∀ k, c.Keeps k → k ∉ c.receipts → d.Accounted k.pair) : d.Accounted p := by
  cases h with
  | ended h => exact .ended (hended h)
  | rested h => exact .rested (hrested h)
  | bare k hk hcommit hpair => exact hpair ▸ hbare k hk hcommit
  | live k hk hnew hpair => exact hpair ▸ hkeeps k hk hnew

/-- A move that changes only who keeps what. -/
theorem Accounted.of_keeps {p : Pair} (h : c.Accounted p) (hended : c.ended ⊆ d.ended)
    (hrested : c.rested ⊆ d.rested) (hdue : ∀ k ∈ c.due, k ∈ d.due)
    (hreceipts : d.receipts ⊆ c.receipts)
    (hkeeps : ∀ k, c.Keeps k → k ∉ c.receipts → d.Keeps k ∨ k.pair ∈ d.ended) :
    d.Accounted p := by
  refine h.transfer hended hrested (fun k hk hbare ↦ .bare k (hdue k hk) hbare rfl) ?_
  intro k hk hnew
  rcases hkeeps k hk hnew with hk | hend
  · exact .live k hk (fun hr ↦ hnew (hreceipts hr)) rfl
  · exact .ended hend

/-- Changing records in place keeps what they hold, as long as no sighting is taken back. -/
theorem Keeps.mapRecords {f g : Holding → Holding} (hf : ∀ x, (f x).SameRound x)
    (hg : ∀ x, (g x).SameRound x) (h : c.Keeps k)
    (hsighted : ∀ x ∈ c.released, x.sighted = true → k ∈ x.keys → (g x).sighted = true) :
    Keeps { c with flight := c.flight.map f, released := c.released.map g } k := by
  cases h with
  | queue h => exact .queue h
  | held h => exact .held h
  | flight x hx h => exact .flight (f x) (by simp [hx]) ((hf x).keys ▸ h)
  | released z hz hz' h =>
    exact .released (g z) (List.mem_map_of_mem hz) (hsighted z hz hz' h) ((hg z).keys ▸ h)
  | due h => exact .due h


/-! ### Landings and re-orgs -/

/-- A claim found after a landing is sighted was made then, or was there before. -/
theorem claimed_note {r : Bytes32} (own : Holding → Holding)
    (hown : ∀ y, (own y).claimed = y.claimed) (h : (z.split own z.noteClaim x).claimed k = some r) :
    (x.ref ≠ z.ref ∧ k ∈ z.keys ∧ r = z.rid) ∨ x.claimed k = some r := by
  by_cases href : x.ref = z.ref
  · rw [split_of_eq href, hown] at h
    exact Or.inr h
  · rw [split_of_ne href] at h
    simp only [Holding.noteClaim] at h
    split at h
    · next hk => exact Or.inl ⟨href, hk.2, (Option.some.inj h).symm⟩
    · exact Or.inr h

/-- A claim that survives the end of a landing was made by another round, or stands on the round's
own record. -/
theorem claimed_drop {r : Bytes32} (own : Holding → Holding)
    (hown : ∀ y, (own y).claimed = y.claimed) (h : (z.split own z.dropClaim x).claimed k = some r) :
    x.claimed k = some r ∧ (x.ref = z.ref ∨ r ≠ z.rid) := by
  by_cases href : x.ref = z.ref
  · rw [split_of_eq href, hown] at h
    exact ⟨h, Or.inl href⟩
  · rw [split_of_ne href] at h
    simp only [Holding.dropClaim] at h
    split at h
    · cases h
    · next hne => exact ⟨h, Or.inr fun hr ↦ hne (hr ▸ h)⟩

theorem Kept.sight (h : c.Kept) (hz : z ∈ c.released) : (c.sight z).Kept := by
  have hkeep : ∀ x y : Holding, ∀ k, y ∈ c.released → (y.sighted = true ∨ y = z) →
      y.ref ≠ x.ref → k ∈ y.keys → ∃ y' ∈ (c.sight z).released,
      y'.sighted = true ∧ y'.ref ≠ x.ref ∧ y'.rid = y.rid ∧ k ∈ y'.keys := by
    intro x y k hy hsighted href hk
    obtain ⟨y', hy', hsighted', hsame⟩ := exists_sighted_sight hy hsighted
    exact ⟨y', hy', hsighted', hsame.ref ▸ href, hsame.rid, hsame.keys ▸ hk⟩
  have hold : ∀ (x : Holding) k r, (c.flight = some x ∨ x ∈ c.released) → k ∈ x.keys →
      ((x.ref ≠ z.ref ∧ k ∈ z.keys ∧ r = z.rid) ∨ x.claimed k = some r) →
      k ∈ c.receipts ∨ ∃ y ∈ (c.sight z).released,
        y.sighted = true ∧ y.ref ≠ x.ref ∧ y.rid = r ∧ k ∈ y.keys := by
    intro x k r hx hk hclaim
    rcases hclaim with ⟨href, hkz, rfl⟩ | hclaim
    · exact Or.inr (hkeep x z k hz (Or.inr rfl) (Ne.symm href) hkz)
    · rcases h.claims x hx k hk r hclaim with hr | ⟨y, hy, hsighted, href, rfl, hky⟩
      · exact Or.inl hr
      · exact Or.inr (hkeep x y k hy (Or.inl hsighted) href hky)
  refine ⟨fun x' hx' k hk r hclaim ↦ ?_, fun y hy hdone k hk ↦ ?_, fun p hp ↦ ?_⟩
  · rcases hx' with hx' | hx'
    · obtain ⟨x, hx, rfl⟩ := Option.map_eq_some_iff.mp hx'
      have hsame := z.sameRound_note x
      rw [hsame.ref]
      exact hold x k r (Or.inl hx) (hsame.keys ▸ hk) (claimed_note id (fun _ ↦ rfl) hclaim)
    · obtain ⟨x, hx, rfl⟩ := List.mem_map.mp hx'
      have hsame := z.sameRound_sight x true
      rw [hsame.ref]
      exact hold x k r (Or.inr hx) (hsame.keys ▸ hk)
        (claimed_note (Holding.setSighted true) (fun _ ↦ rfl) hclaim)
  · obtain ⟨x, hx, rfl⟩ := List.mem_map.mp hy
    have hsame := z.sameRound_sight x true
    exact h.done x hx (hsame.ref ▸ hdone) k (hsame.keys ▸ hk)
  · refine (h.placed p hp).of_keeps (d := c.sight z) (fun _ h ↦ h) (fun _ h ↦ h)
      (fun _ h ↦ h) (fun _ h ↦ h) ?_
    intro k hk _
    left
    -- what the landing takes from the mempool and the build is now with the landed round
    by_cases hkz : k ∈ z.keys
    · obtain ⟨y, hy, hsighted, hsame⟩ := exists_sighted_sight hz (Or.inr rfl)
      exact .released y hy hsighted (hsame.keys ▸ hkz)
    · have hmap := hk.mapRecords z.sameRound_note (z.sameRound_sight · true)
        fun x _ hx _ ↦ sighted_of_sight hx
      cases hmap with
      | queue hq => exact .queue (List.mem_filter.mpr ⟨hq, by simpa using hkz⟩)
      | held hh => exact .held (Multiset.mem_filter.mpr ⟨hh, hkz⟩)
      | flight x hx hkx => exact .flight x hx hkx
      | released x hx hsighted hkx => exact .released x hx hsighted hkx
      | due hd => exact .due hd

theorem mem_busy (h : k ∈ c.busy z) :
    (∃ x, c.flight = some x ∧ k ∈ x.keys) ∨
      (∃ y ∈ c.released, y.ref ≠ z.ref ∧ y.sighted = true ∧ k ∈ y.keys) ∨ k ∈ c.queue := by
  simp only [Custody.busy, List.mem_append, List.mem_flatMap, List.mem_filter, Option.mem_toList,
    decide_eq_true_eq] at h
  rcases h with ⟨x, ⟨hx, -⟩ | ⟨hx, href, hsighted⟩, hk⟩ | h
  · exact Or.inl ⟨x, hx, hk⟩
  · exact Or.inr (Or.inl ⟨x, hx, href, hsighted, hk⟩)
  · exact Or.inr (Or.inr h)

theorem Kept.unsight (hs : c.Sound) (h : c.Kept) (hz : z ∈ c.released) : (c.unsight z).Kept := by
  have hkeep : ∀ x y : Holding, ∀ k, y ∈ c.released → y.sighted = true → y.ref ≠ z.ref →
      y.ref ≠ x.ref → k ∈ y.keys → ∃ y' ∈ (c.unsight z).released,
      y'.sighted = true ∧ y'.ref ≠ x.ref ∧ y'.rid = y.rid ∧ k ∈ y'.keys := by
    intro x y k hy hsighted hne href hk
    obtain ⟨y', hy', hsighted', hsame⟩ := exists_sighted_unsight hy hsighted hne
    exact ⟨y', hy', hsighted', hsame.ref ▸ href, hsame.rid, hsame.keys ▸ hk⟩
  have hold : ∀ (x : Holding) k r, (c.flight = some x ∨ x ∈ c.released) → k ∈ x.keys →
      x.claimed k = some r ∧ (x.ref = z.ref ∨ r ≠ z.rid) →
      k ∈ c.receipts ∨ ∃ y ∈ (c.unsight z).released,
        y.sighted = true ∧ y.ref ≠ x.ref ∧ y.rid = r ∧ k ∈ y.keys := by
    intro x k r hx hk hclaim
    rcases h.claims x hx k hk r hclaim.1 with hr | ⟨y, hy, hsighted, href, rfl, hky⟩
    · exact Or.inl hr
    · refine Or.inr (hkeep x y k hy hsighted (fun hyz ↦ ?_) href hky)
      -- the claimer is not the round whose landing ended: records are told apart by number
      rcases hclaim.2 with hxz | hrid
      · exact href (hyz.trans hxz.symm)
      · exact hrid (congrArg Holding.rid (hs.eq_of_ref hy hz hyz))
  refine ⟨fun x' hx' k hk r hclaim ↦ ?_, fun y hy hdone k hk ↦ ?_, fun p hp ↦ ?_⟩
  · rcases hx' with hx' | hx'
    · obtain ⟨x, hx, rfl⟩ := Option.map_eq_some_iff.mp hx'
      have hsame := z.sameRound_drop x
      rw [hsame.ref]
      exact hold x k r (Or.inl hx) (hsame.keys ▸ hk) (claimed_drop id (fun _ ↦ rfl) hclaim)
    · obtain ⟨x, hx, rfl⟩ := List.mem_map.mp hx'
      have hsame := z.sameRound_unsight x false
      rw [hsame.ref]
      exact hold x k r (Or.inr hx) (hsame.keys ▸ hk)
        (claimed_drop (Holding.setSighted false) (fun _ ↦ rfl) hclaim)
  · obtain ⟨x, hx, rfl⟩ := List.mem_map.mp hy
    have hsame := z.sameRound_unsight x false
    exact h.done x hx (hsame.ref ▸ hdone) k (hsame.keys ▸ hk)
  · refine (h.placed p hp).of_keeps (d := c.unsight z) (fun _ h ↦ h) (fun _ h ↦ h)
      (fun _ h ↦ h) (fun _ h ↦ h) ?_
    intro k hk _
    left
    have hflight : ∀ x, c.flight = some x → k ∈ x.keys → (c.unsight z).Keeps k := fun x hx hkx ↦
      .flight (z.split id z.dropClaim x) (by simp [Custody.unsight, hx])
        ((z.sameRound_drop x).keys ▸ hkx)
    have hother : ∀ y ∈ c.released, y.ref ≠ z.ref → y.sighted = true → k ∈ y.keys →
        (c.unsight z).Keeps k := fun y hy hne hsighted hky ↦ by
      obtain ⟨y', hy', hsighted', hsame⟩ := exists_sighted_unsight hy hsighted hne
      exact .released y' hy' hsighted' (hsame.keys ▸ hky)
    cases hk with
    | queue hq => exact .queue (List.mem_append_right _ hq)
    | held hh => exact .held hh
    | flight x hx hkx => exact hflight x hx hkx
    | released y hy hsighted hky =>
      by_cases hne : y.ref = z.ref
      · cases hs.eq_of_ref hy hz hne
        -- an order of the round itself goes back, unless someone else holds it
        by_cases hbusy : k ∈ c.busy z
        · rcases mem_busy hbusy with ⟨x, hx, hkx⟩ | ⟨w, hw, hwne, hws, hkw⟩ | hq
          · exact hflight x hx hkx
          · exact hother w hw hwne hws hkw
          · exact .queue (List.mem_append_right _ hq)
        · refine .queue (List.mem_append_left _ (List.mem_filter.mpr ⟨hky, ?_⟩))
          simpa using hbusy
      · exact hother y hy hne hsighted hky
    | due hd => exact .due hd

/-! ### Settlements -/

/-- The fate a settlement gives an order the round owned. -/
theorem MaySettle.accounted (hb : c.MaySettle x book b) (hx : ∀ k ∈ x.keys, k ∈ c.seen)
    (hreceipts : ∀ k ∈ c.receipts, k ∈ c.seen) (hk : k ∈ x.unclaimed) :
    (c.settle x b).Accounted k.pair := by
  obtain ⟨finished, left, carried, hfates, hended, hrested, hcarried⟩ := hb.accounts
  have hfate := hfates.symm.subset hk
  rw [List.mem_append, List.mem_append] at hfate
  rcases hfate with (hover | hleft) | hcarry
  · refine .ended (List.mem_append_left _ (hended.symm.subset ?_))
    exact List.mem_append_left _ (List.mem_map_of_mem hover)
  · exact .rested (List.mem_append_left _ (hrested k hleft))
  · obtain ⟨k', hk', hpair⟩ := List.mem_map.mp (hcarried.symm.subset (List.mem_map_of_mem hcarry))
    by_cases hbare : k'.commit = none
    · -- a remainder without a seal waits for one
      have hretry : k' ∈ b.retried := (List.mem_append.mp hk').resolve_left fun hq ↦
        hb.sealed k' hq hbare
      exact .bare k' (Multiset.mem_add.mpr (Or.inr hretry)) hbare hpair
    · have hnew : k' ∉ c.seen := hb.minted k' (mem_minted.mpr ⟨List.mem_append.mp hk', hbare⟩)
      refine .live k' ?_ (fun hr ↦ hnew ?_) hpair
      · rcases List.mem_append.mp hk' with hq | ht
        · exact .queue (List.mem_append_right _ hq)
        · exact .due (Multiset.mem_add.mpr (Or.inr ht))
      · rcases List.mem_append.mp hr with hr | hr
        · exact hx k' (mem_unclaimed.mp hr).1
        · exact hreceipts k' hr

/-- Who keeps an order that a settlement did not touch still keeps it. -/
theorem Keeps.settle (h : c.Keeps k) : (c.settle x b).Keeps k := by
  exact h.mono (d := c.settle x b) (fun _ h ↦ List.mem_append_left _ h) (fun _ h ↦ h)
    (fun _ h ↦ h) (fun _ h _ ↦ h) fun _ h ↦ Multiset.mem_add.mpr (Or.inl h)

theorem Kept.settleReleased (hs : c.Sound) (h : c.Kept) (hz : z ∈ c.released) (halone : c.Alone z)
    (hb : c.MaySettle z book b) : Kept { c.settle z b with done := z.ref :: c.done } := by
  have hx : ∀ k ∈ z.keys, k ∈ c.seen := fun k hk ↦ hs.known_seen k (.released z hz hk)
  have hgrow : ∀ k ∈ c.receipts, k ∈ z.unclaimed ++ c.receipts := fun k hk ↦
    List.mem_append_right _ hk
  -- finalized alone, the round leaves none of its orders to somebody else
  have hall : ∀ k ∈ z.keys, k ∈ z.unclaimed ++ c.receipts := by
    intro k hk
    cases hclaim : z.claimed k with
    | none => exact List.mem_append_left _ (mem_unclaimed.mpr ⟨hk, hclaim⟩)
    | some r =>
      rcases h.claims z (Or.inr hz) k hk r hclaim with hr | ⟨y, hy, hsighted, href, -, hky⟩
      · exact hgrow k hr
      · exact absurd ⟨k, hk, hky⟩ (halone y hy href hsighted)
  refine ⟨fun x hx' k hk r hclaim ↦ ?_, fun y hy hdone k hk ↦ ?_, fun p hp ↦ ?_⟩
  · exact (h.claims x hx' k hk r hclaim).imp (hgrow k) id
  · rcases List.mem_cons.mp hdone with href | hdone
    · cases hs.eq_of_ref hy hz href
      exact hall k hk
    · exact hgrow k (h.done y hy hdone k hk)
  · have hacc : (c.settle z b).Accounted p := by
      refine (h.placed p hp).transfer (fun _ h ↦ List.mem_append_right _ h)
        (fun _ h ↦ List.mem_append_right _ h) (fun k hk hbare ↦ ?_) fun k hk hnew ↦ ?_
      · exact .bare k (Multiset.mem_add.mpr (Or.inl hk)) hbare rfl
      · by_cases hown : k ∈ z.unclaimed
        · exact hb.accounted hx (fun k hk ↦ hs.known_seen k (.receipts hk)) hown
        · exact .live k hk.settle (fun hr ↦ (List.mem_append.mp hr).elim hown hnew) rfl
    exact hacc.of_keeps (d := { c.settle z b with done := z.ref :: c.done }) (fun _ h ↦ h)
      (fun _ h ↦ h) (fun _ h ↦ h) (fun _ h ↦ h) fun k hk _ ↦ Or.inl <| hk.mono (fun _ h ↦ h)
      (fun _ h ↦ h) (fun _ h ↦ h) (fun _ h _ ↦ h) fun _ h ↦ h

theorem Kept.settleFlight (hs : c.Sound) (h : c.Kept) (hflight : c.flight = some x)
    (hb : c.MaySettle x book b) : Kept { c.settle x b with flight := none } := by
  have hgrow : ∀ k ∈ c.receipts, k ∈ x.unclaimed ++ c.receipts := fun k hk ↦
    List.mem_append_right _ hk
  refine ⟨fun y hy k hk r hclaim ↦ ?_, fun y hy hdone k hk ↦ ?_, fun p hp ↦ ?_⟩
  · have hy' : y ∈ c.released := hy.resolve_left (by simp)
    exact (h.claims y (Or.inr hy') k hk r hclaim).imp (hgrow k) id
  · exact hgrow k (h.done y hy hdone k hk)
  · have hother : ∀ k, k ∉ x.unclaimed → k ∉ c.receipts → c.Keeps k →
        Accounted { c.settle x b with flight := none } k.pair := by
      intro k hown hnew hk
      refine .live k ?_ (fun hr ↦ (List.mem_append.mp hr).elim hown hnew) rfl
      cases hk with
      | queue h => exact .queue (List.mem_append_left _ h)
      | held h => exact .held h
      | flight y hy hky =>
        -- an order claimed from the round is with the landed round that claimed it
        cases Option.some.inj (hflight.symm.trans hy)
        obtain ⟨r, hr⟩ : ∃ r, x.claimed k = some r :=
          Option.ne_none_iff_exists'.mp fun hnone ↦ hown (mem_unclaimed.mpr ⟨hky, hnone⟩)
        rcases h.claims x (Or.inl hflight) k hky r hr with hr | ⟨y, hy, hsighted, -, -, hky⟩
        · exact absurd hr hnew
        · exact .released y hy hsighted hky
      | released z hz hsighted h => exact .released z hz hsighted h
      | due h => exact .due (Multiset.mem_add.mpr (Or.inl h))
    refine (h.placed p hp).transfer (fun _ h ↦ List.mem_append_right _ h)
      (fun _ h ↦ List.mem_append_right _ h) (fun k hk hbare ↦ ?_) fun k hk hnew ↦ ?_
    · exact .bare k (Multiset.mem_add.mpr (Or.inl hk)) hbare rfl
    · by_cases hown : k ∈ x.unclaimed
      · have hb' : MaySettle { c with flight := none } x book b := { hb with }
        exact hb'.accounted (fun k hk ↦ hs.known_seen k (.flight x hflight hk))
          (fun k hk ↦ hs.known_seen k (.receipts hk)) hown
      · exact hother k hown hnew hk

/-! ### Records and the drain -/

theorem Kept.release (hs : c.Sound) (h : c.Kept) (hflight : c.flight = some x) :
    (c.release x).Kept := by
  have hclaims : ∀ k ∈ x.keys, ∀ r, x.claimed k = some r → k ∈ c.receipts ∨
      ∃ y ∈ c.released, y.sighted = true ∧ y.rid = r ∧ k ∈ y.keys := fun k hk r hr ↦
    (h.claims x (Or.inl hflight) k hk r hr).imp id fun ⟨y, hy, hsighted, _, hrid, hky⟩ ↦
      ⟨y, hy, hsighted, hrid, hky⟩
  refine ⟨fun y hy k hk r hclaim ↦ ?_, fun y hy hdone k hk ↦ ?_, fun p hp ↦ ?_⟩
  · have hy' : y ∈ c.released ++ [{ x with ref := c.refs, sighted := false }] :=
      hy.resolve_left (by simp [Custody.release])
    rcases List.mem_append.mp hy' with hy' | hy'
    · rcases h.claims y (Or.inr hy') k hk r hclaim with hr | ⟨w, hw, hrest⟩
      · exact Or.inl hr
      · exact Or.inr ⟨w, List.mem_append_left _ hw, hrest⟩
    · cases List.mem_singleton.mp hy'
      rcases hclaims k hk r hclaim with hr | ⟨w, hw, hsighted, hrid, hkw⟩
      · exact Or.inl hr
      · exact Or.inr ⟨w, List.mem_append_left _ hw, hsighted, (hs.refs_lt w hw).ne, hrid, hkw⟩
  · rcases List.mem_append.mp hy with hy | hy
    · exact h.done y hy hdone k hk
    · -- the new record has a number of its own
      cases List.mem_singleton.mp hy
      obtain ⟨w, hw, href, -⟩ := hs.done_sighted _ hdone
      exact absurd href (hs.refs_lt w hw).ne
  · refine (h.placed p hp).of_keeps (d := c.release x) (fun _ h ↦ h) (fun _ h ↦ h)
      (fun _ h ↦ h) (fun _ h ↦ h) ?_
    intro k hk hnew
    left
    cases hk with
    | queue h => exact .queue (List.mem_append_right _ h)
    | held h => exact .held h
    | flight y hy hky =>
      cases Option.some.inj (hflight.symm.trans hy)
      cases hclaim : x.claimed k with
      | none => exact .queue (List.mem_append_left _ (mem_unclaimed.mpr ⟨hky, hclaim⟩))
      | some r =>
        rcases hclaims k hky r hclaim with hr | ⟨w, hw, hsighted, -, hkw⟩
        · exact absurd hr hnew
        · exact .released w (List.mem_append_left _ hw) hsighted hkw
    | released z hz hsighted h => exact .released z (List.mem_append_left _ hz) hsighted h
    | due h => exact .due h

/-- Dropping released rounds is safe when each one dropped is unsighted or has settled its
orders. -/
theorem Kept.drop (h : c.Kept) {released : List Holding} {done : List ℕ}
    (hsub : released ⊆ c.released) (hdone : done ⊆ c.done)
    (hdrop : ∀ z ∈ c.released, z ∈ released ∨ z.sighted = false ∨ z.ref ∈ c.done) :
    Kept { c with released, done } := by
  refine ⟨fun x hx k hk r hclaim ↦ ?_, fun z hz hz' k hk ↦ ?_, fun p hp ↦ ?_⟩
  · rcases h.claims x (hx.imp id fun hx ↦ hsub hx) k hk r hclaim with hr | ⟨y, hy, hrest⟩
    · exact Or.inl hr
    · rcases hdrop y hy with hy' | hy' | hy'
      · exact Or.inr ⟨y, hy', hrest⟩
      · simp [hrest.1] at hy'
      · exact Or.inl (h.done y hy hy' k hrest.2.2.2)
  · exact h.done z (hsub hz) (hdone hz') k hk
  · refine (h.placed p hp).of_keeps (d := { c with released, done }) (fun _ h ↦ h)
      (fun _ h ↦ h) (fun _ h ↦ h) (fun _ h ↦ h) ?_
    intro k hk hnew
    left
    cases hk with
    | queue h => exact .queue h
    | held h => exact .held h
    | flight x hx h => exact .flight x hx h
    | released z hz hsighted hkz =>
      rcases hdrop z hz with hz' | hz' | hz'
      · exact .released z hz' hsighted hkz
      · simp [hsighted] at hz'
      · exact absurd (h.done z hz hz' k hkz) hnew
    | due h => exact .due h

/-- A move that leaves the records and the settled orders alone. -/
theorem Kept.of_accounted (h : c.Kept) (hflight : d.flight = c.flight)
    (hreleased : d.released = c.released) (hdone : d.done ⊆ c.done)
    (hreceipts : d.receipts = c.receipts) (hplaced : ∀ p ∈ d.placed, d.Accounted p) :
    d.Kept := by
  refine ⟨fun x hx k hk r hclaim ↦ ?_, fun z hz hz' k hk ↦ ?_, hplaced⟩
  · rw [hflight, hreleased] at hx
    rw [hreceipts, hreleased]
    exact h.claims x hx k hk r hclaim
  · rw [hreleased] at hz
    rw [hreceipts]
    exact h.done z hz (hdone hz') k hk

/-- A move of the build: every order that was queued or in the build's hands is kept or over. -/
theorem Kept.regroup (h : c.Kept) {queue taken spent : List OKey} {held : Multiset OKey}
    {ended : List Pair} {fresh : List ℕ} {refs : ℕ}
    (hd : { c with queue, taken, spent, held, ended, fresh, refs } = d) (hended : c.ended ⊆ ended)
    (hqueue : ∀ k ∈ c.queue, d.Keeps k ∨ k.pair ∈ d.ended)
    (hheld : ∀ k ∈ c.held, d.Keeps k ∨ k.pair ∈ d.ended) : d.Kept := by
  subst hd
  refine h.of_accounted rfl rfl (fun _ h ↦ h) rfl fun p hp ↦ ?_
  refine (h.placed p hp).of_keeps hended (fun _ h ↦ h) (fun _ h ↦ h) (fun _ h ↦ h) fun k hk _ ↦ ?_
  cases hk with
  | queue h => exact hqueue k h
  | held h => exact hheld k h
  | flight x hx h => exact Or.inl (.flight x hx h)
  | released z hz hsighted h => exact Or.inl (.released z hz hsighted h)
  | due h => exact Or.inl (.due h)

/-- A move of the drain: a remainder no longer owed is accounted for otherwise. -/
theorem Kept.of_due (h : c.Kept) {queue retry seen : List OKey} {ended : List Pair}
    {due reposted lapsed : Multiset OKey}
    (hd : { c with queue, retry, seen, due, reposted, lapsed, ended } = d)
    (hended : c.ended ⊆ ended) (hqueue : c.queue ⊆ queue)
    (hdue : ∀ k ∈ c.due, k ∈ due ∨
      (k.commit = none ∨ k ∉ c.receipts → d.Accounted k.pair)) : d.Kept := by
  subst hd
  refine h.of_accounted rfl rfl (fun _ h ↦ h) rfl fun p hp ↦ ?_
  refine (h.placed p hp).transfer hended (fun _ h ↦ h) (fun k hk hbare ↦ ?_) fun k hk hnew ↦ ?_
  · rcases hdue k hk with hk | hacc
    · exact .bare k hk hbare rfl
    · exact hacc (Or.inl hbare)
  · cases hk with
    | queue h => exact .live k (.queue (hqueue h)) hnew rfl
    | held h => exact .live k (.held h) hnew rfl
    | flight x hx h => exact .live k (.flight x hx h) hnew rfl
    | released z hz hsighted h => exact .live k (.released z hz hsighted h) hnew rfl
    | due h =>
      rcases hdue k h with hk | hacc
      · exact .live k (.due hk) hnew rfl
      · exact hacc (Or.inr hnew)

theorem Kept.register (h : c.Kept) (hflight : c.flight = none) (hkeys : c.held = x.keys)
    (hclaimed : ∀ k, x.claimed k = none) : (c.register x).Kept := by
  have hsighted : ∀ z ∈ c.released, z.sighted = true →
      z ∈ c.released.filter fun z ↦ z.rid ≠ x.rid ∨ z.sighted = true := fun z hz hz' ↦
    List.mem_filter.mpr ⟨hz, by simp [hz']⟩
  refine ⟨fun y hy k hk r hclaim ↦ ?_, fun z hz hz' k hk ↦ ?_, fun p hp ↦ ?_⟩
  · rcases hy with hy | hy
    · cases Option.some.inj hy
      simp [hclaimed k] at hclaim
    · rcases h.claims y (Or.inr (List.mem_of_mem_filter hy)) k hk r hclaim with
        hr | ⟨w, hw, hw', hrest⟩
      · exact Or.inl hr
      · exact Or.inr ⟨w, hsighted w hw hw', hw', hrest⟩
  · exact h.done z (List.mem_of_mem_filter hz) hz' k hk
  · refine (h.placed p hp).of_keeps (d := c.register x) (fun _ h ↦ h) (fun _ h ↦ h)
      (fun _ h ↦ h) (fun _ h ↦ h) fun k hk _ ↦ Or.inl ?_
    cases hk with
    | queue h => exact .queue h
    | held h => exact .flight x rfl (by simpa [hkeys] using h)
    | flight y hy h => simp [hflight] at hy
    | released z hz hz' h => exact .released z (hsighted z hz hz') hz' h
    | due h => exact .due h

/-- Every move keeps every placed order accounted for, when released rounds are finalized alone. -/
theorem Kept.move (hs : c.Sound) (h : c.Kept) (hmove : Move FinalizedAlone c d) : d.Kept := by
  cases hmove with
  | place k htaken hnew hG =>
    refine h.of_accounted rfl rfl (fun _ h ↦ h) rfl fun p hp ↦ ?_
    rcases List.mem_cons.mp hp with rfl | hp
    · refine .live k (.queue (by simp)) (fun hk ↦ hnew ?_) rfl
      exact hs.seen_placed k (hs.known_seen k (.receipts hk))
    · exact (h.placed p hp).of_keeps (fun _ h ↦ h) (fun _ h ↦ h) (fun _ h ↦ h) (fun _ h ↦ h)
        fun _ hk _ ↦ Or.inl (hk.mono (fun _ h ↦ List.mem_append_left _ h) (fun _ h ↦ h)
          (fun _ h ↦ h) (fun _ h _ ↦ h) fun _ h ↦ h)
  | cancel p htaken =>
    refine h.regroup rfl (fun _ h ↦ List.mem_append_right _ h) (fun k hq ↦ ?_) fun k hh ↦
      Or.inl (.held hh)
    by_cases hp : k.pair = p
    · refine Or.inr (List.mem_append_left _ (List.mem_map_of_mem ?_))
      exact List.mem_filter.mpr ⟨hq, by simpa using hp⟩
    · exact Or.inl (.queue (List.mem_filter.mpr ⟨hq, by simpa using hp⟩))
  | take queue taken held hflight hheld htaken hqueue hsub hle hall hcover hapart =>
    refine h.regroup rfl (fun _ h ↦ h) (fun k hq ↦ Or.inl ?_) fun k hh ↦ by simp [hheld] at hh
    exact (hcover k hq).elim (fun h ↦ .queue h) fun h ↦ .held h
  | endHeld k hk =>
    refine h.regroup rfl (fun _ h ↦ List.mem_cons_of_mem _ h) (fun k' hq ↦ Or.inl (.queue hq))
      fun k' hh ↦ ?_
    by_cases heq : k' = k
    · exact Or.inr (heq ▸ List.mem_cons_self)
    · exact Or.inl (.held ((Multiset.mem_erase_of_ne heq).mpr hh))
  | giveBack back held hsplit =>
    refine h.regroup rfl (fun _ h ↦ h) (fun k hq ↦ Or.inl (.queue (List.mem_append_right _ hq)))
      fun k hh ↦ Or.inl ?_
    rw [hsplit, Multiset.mem_add, Multiset.mem_coe] at hh
    exact hh.elim (fun h ↦ .queue (List.mem_append_left _ h)) fun h ↦ .held h
  | requeue back hback hfree hcover =>
    refine h.regroup rfl (fun _ h ↦ h) (fun k hq ↦ Or.inl (.queue (List.mem_append_right _ hq)))
      fun k hh ↦ ?_
    rcases hcover k (hs.held_taken k hh) with hb | hspent | hq | ⟨z, hz, hsighted, hkz⟩
    · exact Or.inl (.queue (List.mem_append_left _ hb))
    · exact Or.inr (hs.spent_ended k hspent)
    · exact Or.inl (.queue (List.mem_append_right _ hq))
    · exact Or.inl (.released z hz hsighted hkz)
  | finish hheld =>
    exact h.regroup rfl (fun _ h ↦ h) (fun k hq ↦ Or.inl (.queue hq)) fun k hh ↦ by
      simp [hheld] at hh
  | register x hflight hkeys hclaimed href hG => exact h.register hflight hkeys hclaimed
  | skip =>
    exact h.regroup rfl (fun _ h ↦ h) (fun k hq ↦ Or.inl (.queue hq)) fun k hh ↦ Or.inl (.held hh)
  | release x hflight => exact h.release hs hflight
  | forget released hsub hdrop =>
    exact h.drop hsub.subset (fun _ h ↦ h) fun z hz ↦ (hdrop z hz).imp id Or.inl
  | sight z hz hsighted hG => exact h.sight hz
  | unsight z hturn hG => exact h.unsight hs hturn.mem
  | settleReleased z book b hturn hG hb => exact h.settleReleased hs hturn.mem hG hb
  | settleFlight x book b hflight hG hb => exact h.settleFlight hs hflight hb
  | closePass released hsub hdrop hkeep => exact h.drop hsub.subset (List.nil_subset _) hdrop
  | abortPass dropped hdone hG =>
    exact h.drop (fun _ h ↦ h) (List.nil_subset _) fun z hz ↦ Or.inl hz
  | reseal k k' htaken hk hbare hpair hsealed hnew =>
    refine h.of_due rfl (fun _ h ↦ h) (fun _ h ↦ h) fun k₁ hk₁ ↦ ?_
    by_cases heq : k₁ = k
    · refine Or.inr fun _ ↦ .live k' (.due (Multiset.mem_cons_self _ _)) (fun hr ↦ hnew ?_) ?_
      · exact hs.known_seen k' (.receipts hr)
      · exact hpair.trans (heq ▸ rfl)
    · exact Or.inl (Multiset.mem_cons_of_mem ((Multiset.mem_erase_of_ne heq).mpr hk₁))
  | repost k htaken hk hsealed =>
    refine h.of_due rfl (fun _ h ↦ h) (fun _ h ↦ List.mem_append_left _ h) fun k₁ hk₁ ↦ ?_
    by_cases heq : k₁ = k
    · refine Or.inr fun hnew ↦ ?_
      rcases hnew with hbare | hnew
      · exact absurd (heq ▸ hbare) hsealed
      · exact .live k (.queue (by simp)) (heq ▸ hnew) (heq ▸ rfl)
    · exact Or.inl ((Multiset.mem_erase_of_ne heq).mpr hk₁)
  | lapse k htaken hk =>
    refine h.of_due rfl (fun _ h ↦ List.mem_cons_of_mem _ h) (fun _ h ↦ h) fun k₁ hk₁ ↦ ?_
    by_cases heq : k₁ = k
    · exact Or.inr fun _ ↦ .ended (heq ▸ List.mem_cons_self)
    · exact Or.inl ((Multiset.mem_erase_of_ne heq).mpr hk₁)
  | closeDrain retry hdue =>
    exact h.of_due rfl (fun _ h ↦ h) (fun _ h ↦ h) fun _ hk ↦ Or.inl hk
  | abortDrain retry reposted lapsed hrepost hlapse hretry hG =>
    refine h.of_due rfl (fun _ h ↦ h) (fun _ h ↦ h) fun k hk ↦ Or.inl ?_
    rw [hretry]
    simp [hk]

end Custody

end Jamswap.Builder
