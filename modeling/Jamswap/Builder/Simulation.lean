import Jamswap.Builder.Receipts

/-!
# Following the custody protocol

How a state of the builder is read as a custody (`Tracks`), and what it means that the protocol
reaches it (`Reached`). A program is accounted for by a triple between such predicates: what it does
to the state is matched by moves, as long as no two commitments coincide, no two placed orders share
an account and id, and every decision on record meets the condition `G` (`Lasting`).
-/

namespace Jamswap.Builder

open Library Engine Service Prog

/-- Nothing placed yet. -/
def Custody.initial : Custody where
  queue := []
  flight := none
  released := []
  taken := []
  retry := []
  ended := []
  receipts := []
  finals := []

/-- The custody is that of the state. -/
structure Tracks (s : State) (c : Custody) : Prop where
  view : c.toView = s.view
  placed : c.placed = s.placed
  rested : c.rested = s.rested
  spent : c.spent = s.endedKeys
  refs : c.refs = s.refs
  seals : ∀ k ∈ c.seen, ∀ h, k.commit = some h → h ∈ s.seals

theorem Tracks.released {s : State} {c : Custody} (h : Tracks s c) :
    c.released = s.zombies.map fun z ↦ z.holding z.sighted := congrArg View.released h.view

/-- So far no two commitments coincide, no two placed orders share an account and id, and every
decision met `G`. -/
structure Lasting (G : Incident → Prop) (s : State) : Prop where
  seals : s.seals.Nodup
  placed : s.placed.Nodup
  trace : ∀ i ∈ s.trace, G i

/-- The second state's records extend the first's. -/
structure Later (s s' : State) : Prop where
  seals : s.seals <:+ s'.seals
  placed : s.placed <:+ s'.placed
  trace : s.trace <:+ s'.trace

variable {s s' : State}

theorem Later.of_eq (hseals : s'.seals = s.seals) (hplaced : s'.placed = s.placed)
    (htrace : s'.trace = s.trace) : Later s s' :=
  ⟨hseals ▸ List.suffix_refl _, hplaced ▸ List.suffix_refl _, htrace ▸ List.suffix_refl _⟩

theorem Later.noted {i : Incident} (hseals : s'.seals = s.seals) (hplaced : s'.placed = s.placed)
    (htrace : s'.trace = i :: s.trace) : Later s s' :=
  ⟨hseals ▸ List.suffix_refl _, hplaced ▸ List.suffix_refl _, htrace ▸ List.suffix_cons _ _⟩

theorem Later.lasting {G : Incident → Prop} (h : Later s s') (hs : Lasting G s') :
    Lasting G s where
  seals := hs.seals.sublist h.seals.sublist
  placed := hs.placed.sublist h.placed.sublist
  trace i hi := hs.trace i (h.trace.subset hi)

section Rules

variable (G : Incident → Prop)

/-- The state is one the protocol reaches, with a custody in `L`. -/
def Reached (L : State → Custody → Prop) (s : State) : Prop :=
  Lasting G s → ∃ c, Tracks s c ∧ L s c ∧ Moves G Custody.initial c

variable {G} {α : Type} {L L' : State → Custody → Prop} {R : State → Prop}

theorem Reached.weaken (h : Reached G L s) (hL : ∀ c, Tracks s c → L s c → L' s c) :
    Reached G L' s := fun hs ↦ by
  obtain ⟨c, htracks, hc, hmoves⟩ := h hs
  exact ⟨c, htracks, hL c htracks hc, hmoves⟩

theorem sound_initial : Custody.initial.Sound where
  refs_nodup := List.nodup_nil
  refs_lt _ hz := by cases hz
  flight_ref _ hx := by cases hx
  known_seen k hk := by cases hk with
    | queue h | held h | taken h | reposted h | receipts h => cases h
    | flight x hx h => cases hx
    | released z hz h => cases hz
    | due h hsealed | lapsed h hsealed => cases h
  seen_placed _ hk := by cases hk
  due_placed _ hk := by rcases hk with hk | hk <;> cases hk
  spent_ended _ hk := by cases hk
  held_taken _ hk := by cases hk
  build_alone h := absurd rfl h
  done_sighted _ hr := by cases hr

theorem Moves.sound {c : Custody} (h : Moves G Custody.initial c) : c.Sound :=
  h.keeps (fun _ _ hc hmove ↦ hc.move hmove) sound_initial

/-- A change of state is simulated by moves. -/
theorem Reached.step {s s' : State} (h : Reached G L s) (hlater : Later s s')
    (hstep : ∀ c, Tracks s c → c.Sound → L s c → Lasting G s' →
      ∃ c', Tracks s' c' ∧ L' s' c' ∧ Moves G c c') : Reached G L' s' := fun hs ↦ by
  obtain ⟨c, htracks, hc, hmoves⟩ := h (hlater.lasting hs)
  obtain ⟨c', htracks', hc', hmoves'⟩ := hstep c htracks hmoves.sound hc hs
  exact ⟨c', htracks', hc', hmoves.trans hmoves'⟩

/-- A change that custody does not see. -/
theorem Reached.silent (h : Reached G L s) (hview : s'.view = s.view)
    (hplaced : s'.placed = s.placed) (hrested : s'.rested = s.rested)
    (hspent : s'.endedKeys = s.endedKeys) (hrefs : s'.refs = s.refs) (hseals : s.seals <:+ s'.seals)
    (htrace : s.trace <:+ s'.trace) (hL : ∀ c, Lasting G s' → L s c → L' s' c) :
    Reached G L' s' := by
  refine h.step ⟨hseals, hplaced ▸ List.suffix_refl _, htrace⟩ fun c ht _ hc hs ↦ ?_
  refine ⟨c, ⟨ht.view.trans hview.symm, ht.placed.trans hplaced.symm, ht.rested.trans hrested.symm,
    ht.spent.trans hspent.symm, ht.refs.trans hrefs.symm, fun k hk h hcommit ↦ ?_⟩, hL c hs hc,
    Relation.ReflTransGen.refl⟩
  exact hseals.subset (ht.seals k hk h hcommit)

end Rules

/-! ### Views -/

section Views

variable (s : State) (z : Round)

theorem view_note {decision : View → Incident} (h : (decision s.view).final? = none) :
    (s.note decision).view = s.view := by
  have hfinals : (decision s.view :: s.trace).filterMap Incident.final? =
      s.trace.filterMap Incident.final? := List.filterMap_cons_none h
  simp only [State.view, State.note, State.ended] at hfinals ⊢
  rw [hfinals]

theorem filter_key (orders : List Order) (keys : List OKey) :
    (orders.filter fun o ↦ o.key ∉ keys).map Order.key =
      (orders.map Order.key).filter fun k ↦ k ∉ keys := by
  rw [List.filter_map]
  rfl

/-- Changing one released round, and all other records another way, as custody sees it. -/
theorem view_records (own other : Round → Round) (own' other' : Holding → Holding)
    (href : ∀ fr, (own fr).ref = fr.ref)
    (hown : ∀ fr, (own fr).holding (own fr).sighted = own' (fr.holding fr.sighted))
    (hother : ∀ fr b, (other fr).holding b = other' (fr.holding b))
    (hsighted : ∀ fr, (other fr).sighted = fr.sighted) :
    ((s.setZombie z.ref own).mapOthers z other).view =
      { s.view with
        flight := s.view.flight.map ((z.holding z.sighted).split id other')
        released := s.view.released.map ((z.holding z.sighted).split own' other') } := by
  simp only [State.view, State.mapOthers, State.setZombie, State.ended, View.mk.injEq,
    Option.map_map, List.map_map, and_true, true_and]
  refine ⟨?_, ?_⟩
  · congr 1
    funext fr
    show Round.holding (if fr.ref = z.ref then fr else other fr) false =
      if fr.ref = z.ref then fr.holding false else other' (fr.holding false)
    rw [← hother]
    split <;> rfl
  · congr 1
    funext fr
    by_cases heq : fr.ref = z.ref
    · have hsplit : (z.holding z.sighted).split own' other' (fr.holding fr.sighted) =
          own' (fr.holding fr.sighted) := Custody.split_of_eq heq
      simp only [Function.comp_apply, heq, href, if_true, hown, hsplit]
    · have hsplit : (z.holding z.sighted).split own' other' (fr.holding fr.sighted) =
          other' (fr.holding fr.sighted) := Custody.split_of_ne heq
      simp only [Function.comp_apply, heq, if_false, hsighted, hother, hsplit]

/-- What a landed released round does to custody. -/
theorem view_claim (now : Time) :
    ((s.setZombie z.ref fun z ↦ { z with okSince := some now }).claim z).view =
      { s.view with
        queue := s.view.queue.filter fun k ↦ k ∉ (z.holding z.sighted).keys
        flight := s.view.flight.map
          ((z.holding z.sighted).split id (z.holding z.sighted).noteClaim)
        released := s.view.released.map ((z.holding z.sighted).split (Holding.setSighted true)
          (z.holding z.sighted).noteClaim) } := by
  have hrecords := view_records s z (fun z ↦ { z with okSince := some now }) z.noteClaim
    (Holding.setSighted true) (z.holding z.sighted).noteClaim (fun _ ↦ rfl) (fun _ ↦ rfl)
    (fun _ _ ↦ rfl) fun _ ↦ rfl
  refine (congrArg (fun v : View ↦
    { v with queue := (s.pending.filter fun o : Order ↦ o.key ∉ z.keys).map Order.key })
      hrecords).trans ?_
  rw [filter_key]
  rfl

/-- The keys others hold when a landing is undone, read off the records. -/
theorem busy_unclaim (c : Custody) (hview : c.toView = s.view) :
    ((s.inflight.map fun fr ↦ if fr.ref = z.ref then fr else z.dropClaim fr).toList.filter
        (fun fr ↦ fr.ref ≠ z.ref) ++
      ((s.setZombie z.ref fun z ↦ { z with okSince := none }).mapOthers z
        z.dropClaim).zombies.filter
        fun fr ↦ fr.ref ≠ z.ref ∧ fr.sighted = true).flatMap Round.keys ++
      s.pending.map Order.key = c.busy (z.holding z.sighted) := by
  have hqueue : c.queue = s.pending.map Order.key := congrArg View.queue hview
  have hflight : c.flight = s.inflight.map fun fr ↦ fr.holding false := congrArg View.flight hview
  have hreleased : c.released = s.zombies.map fun z ↦ z.holding z.sighted :=
    congrArg View.released hview
  simp only [Custody.busy, hqueue, hflight, hreleased, List.flatMap_append, State.mapOthers,
    State.setZombie, List.map_map, List.filter_map, List.flatMap_map]
  congr 2
  · cases s.inflight with
    | none => rfl
    | some fr =>
      by_cases href : fr.ref = z.ref
      · simp [href, Round.holding]
      · simp [href, Round.holding, Round.dropClaim, Round.keys, Round.orders]
  · congr 1
    · funext fr
      by_cases href : fr.ref = z.ref
      · simp [href, Round.holding, Round.keys, Round.orders]
      · simp [href, Round.holding, Round.dropClaim, Round.keys, Round.orders]
    · congr 1
      funext fr
      by_cases href : fr.ref = z.ref
      · simp [href, Round.holding]
      · simp [href, Round.holding, Round.dropClaim, Round.sighted]

/-- What the undoing of a landing does to custody. -/
theorem view_unclaim (c : Custody) (hview : c.toView = s.view) :
    ((s.setZombie z.ref fun z ↦ { z with okSince := none }).unclaim z).view =
      (c.unsight (z.holding z.sighted)).toView := by
  have hqueue : c.queue = s.pending.map Order.key := congrArg View.queue hview
  have hbusy := busy_unclaim s z c hview
  have hrest : (c.unsight (z.holding z.sighted)).toView = { s.view with
      queue := ((z.keys.filter fun k ↦ k ∉ c.busy (z.holding z.sighted)) ++ s.view.queue)
      flight := s.view.flight.map
        ((z.holding z.sighted).split id (z.holding z.sighted).dropClaim)
      released := s.view.released.map ((z.holding z.sighted).split (Holding.setSighted false)
        (z.holding z.sighted).dropClaim) } := by
    rw [← hview]
    rfl
  rw [hrest]
  have hrecords := view_records s z (fun z ↦ { z with okSince := none }) z.dropClaim
    (Holding.setSighted false) (z.holding z.sighted).dropClaim (fun _ ↦ rfl) (fun _ ↦ rfl)
    (fun _ _ ↦ rfl) fun _ ↦ rfl
  have hunclaim : (s.setZombie z.ref fun z ↦ { z with okSince := none }).unclaim z =
      { (s.setZombie z.ref fun z ↦ { z with okSince := none }).mapOthers z z.dropClaim with
        pending := (z.orders.filter fun o ↦ o.key ∉ c.busy (z.holding z.sighted)) ++
          s.pending } := by
    rw [← hbusy]
    rfl
  rw [hunclaim]
  refine (congrArg (fun v : View ↦ { v with
    queue := ((z.orders.filter fun o : Order ↦ o.key ∉ c.busy (z.holding z.sighted)) ++
      s.pending).map Order.key }) hrecords).trans ?_
  rw [List.map_append, filter_key]
  rfl

end Views

end Jamswap.Builder
