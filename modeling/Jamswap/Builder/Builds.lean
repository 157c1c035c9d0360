import Jamswap.Builder.Build
import Jamswap.Builder.Sweep

/-!
# Building a round follows the protocol

A build takes its orders out of the mempool, ends some, gives some back, and puts the rest into
flight; when it fails on the way, what it took goes back (`buildRound_spec`). With the sweep,
placing and cancelling, every state of every run is one the custody protocol reaches
(`run_reached`).
-/

namespace Jamswap.Builder

open Library Engine Service Prog

/-- A build holds these orders. -/
structure Custody.Hands (hands : Multiset OKey) (c : Custody) : Prop where
  calm : c.Calm false true
  done : c.done = []
  held : c.held = hands

variable {L : Custody → Prop} {R : State → Prop} {f : Order → Order} {o : Order}
  {hands : Multiset OKey} {rec : Round} {P : State → Prop} {p : Pair}

section Build

variable {G : Incident → Prop} (H : Host) {s : State}

/-! ### Changes custody does not see -/

/-- Order objects change, but not their keys. -/
theorem view_mapOrders (hf : ∀ o, (f o).key = o.key) : (s.mapOrders f).view = s.view := by
  have hkeys : ∀ orders : List Order, (orders.map f).map Order.key = orders.map Order.key :=
    fun orders ↦ by
      rw [List.map_map]
      exact List.map_congr_left fun o _ ↦ hf o
  have hround : ∀ (r : Round) (b : Bool), Round.holding { r with
      sealedOrders := r.sealedOrders.map f, publicOrders := r.publicOrders.map f } b =
      r.holding b := fun r b ↦ by
    simp only [Round.holding, Round.keys, Round.orders, List.map_append, hkeys]
  simp only [State.view, State.mapOrders, State.ended, hkeys, View.mk.injEq, true_and, and_true,
    Option.map_map, List.map_map]
  refine ⟨?_, ?_⟩
  · congr 1
    funext r
    exact hround r false
  · congr 1
    funext r
    exact hround r r.sighted

section

variable (h : Reached G (fun _ c ↦ L c) s)

include h

theorem Reached.mapOrders (hf : ∀ o, (f o).key = o.key) :
    Reached G (fun _ c ↦ L c) (s.mapOrders f) :=
  h.silent (view_mapOrders hf) rfl rfl rfl rfl (List.suffix_refl _) (List.suffix_refl _)
    fun _ _ hc ↦ hc

theorem Reached.attachExpiry : Reached G (fun _ c ↦ L c) s.attachExpiry := by
  refine h.silent ?_ rfl rfl rfl rfl (List.suffix_refl _) (List.suffix_refl _) fun _ _ hc ↦ hc
  simp only [State.view, State.attachExpiry, State.ended, List.map_map, View.mk.injEq, and_true]
  exact List.map_congr_left fun o _ ↦ rfl

theorem Reached.pinCommits (entries : List Bytes) (height : Option ℕ) :
    Reached G (fun _ c ↦ L c) (s.pinCommits entries height) :=
  h.silent rfl rfl rfl rfl rfl (List.suffix_refl _) (List.suffix_refl _) fun _ _ hc ↦ hc

theorem Reached.setGate (gate : Option Time) :
    Reached G (fun _ c ↦ L c) { s with roundGate := gate } :=
  h.silent rfl rfl rfl rfl rfl (List.suffix_refl _) (List.suffix_refl _) fun _ _ hc ↦ hc

end

/-! ### Taking the orders -/

theorem fit_subperm (committee : ℕ) (encCap : Option ℕ) (orders : List Order) :
    (H.fit committee encCap orders).Subperm orders :=
  capBatch_subperm _ _ _ _ _

/-- The orders of a plan leave the mempool. -/
theorem Reached.takeBatch {plan : RoundPlan} (hsub : plan.leaves.Subperm s.pending)
    (hcover : ∀ o ∈ s.pending, o ∈ plan.waits ∨ o ∈ plan.leaves)
    (hapart : ∀ o ∈ plan.waits, o ∉ plan.leaves)
    (h : Reached G (fun _ c ↦ c.Calm true true ∧ c.done = []) s) :
    Reached G (fun _ c ↦ c.Hands (plan.leaves.map Order.key : List OKey) ∧ c.fresh = [])
      (s.takeBatch plan) := by
  refine h.step (.of_eq rfl rfl rfl) ?_
  rintro c ht hs ⟨hcalm, hdone⟩ hlast
  obtain ⟨hheld, htaken, -⟩ := hcalm.idle_eq rfl
  have hqueue : c.queue = s.pending.map Order.key := congrArg View.queue ht.view
  have hleaves : (plan.leaves.map Order.key : Multiset OKey) ≤
      ((s.pending.filter fun o ↦ o.key ∈ plan.leaves.map Order.key).map Order.key : List OKey) := by
    have hkept : plan.leaves.filter (fun o ↦ o.key ∈ plan.leaves.map Order.key) = plan.leaves :=
      List.filter_eq_self.mpr fun o ho ↦ by simpa using ⟨o, ho, rfl⟩
    have hpart := hsub.filter fun o ↦ o.key ∈ plan.leaves.map Order.key
    rw [hkept] at hpart
    exact Multiset.map_le_map (f := Order.key) (Multiset.coe_le.mpr hpart)
  refine ⟨_, ?_, ?_, .single (.take
    ((s.pending.filter fun o ↦ o ∈ plan.waits).map Order.key)
    ((s.pending.filter fun o ↦ o.key ∈ plan.leaves.map Order.key).map Order.key)
    (plan.leaves.map Order.key : List OKey) (hcalm.alone_eq rfl) hheld htaken ?_ ?_ hleaves ?_ ?_
    ?_)⟩
  · refine ⟨?_, ht.placed, ht.rested, rfl, ht.refs, ht.seals⟩
    exact congrArg (fun v : View ↦ { v with
      queue := (s.pending.filter fun o : Order ↦ o ∈ plan.waits).map Order.key
      taken := (s.pending.filter fun o : Order ↦ o.key ∈ plan.leaves.map Order.key).map Order.key })
      ht.view
  · exact ⟨⟨{ hcalm with idle_eq := fun hb ↦ (by cases hb) }, hdone, rfl⟩, rfl⟩
  · rw [hqueue]
    exact List.filter_sublist.map _
  · rw [hqueue]
    exact List.filter_sublist.map _
  · intro k hk
    obtain ⟨o, ho, rfl⟩ := List.mem_map.mp hk
    simpa using (List.mem_filter.mp ho).2
  · intro k hk
    rw [hqueue] at hk
    obtain ⟨o, ho, rfl⟩ := List.mem_map.mp hk
    rcases hcover o ho with hw | hl
    · exact Or.inl (List.mem_map_of_mem (List.mem_filter.mpr ⟨ho, by simpa using hw⟩))
    · exact Or.inr (Multiset.mem_coe.mpr (List.mem_map_of_mem hl))
  · intro hnodup k hk htaken'
    rw [hqueue] at hnodup
    obtain ⟨o, ho, rfl⟩ := List.mem_map.mp hk
    obtain ⟨o', ho', hkey⟩ := List.mem_map.mp htaken'
    have hmem : o'.key ∈ plan.leaves.map Order.key := by simpa using (List.mem_filter.mp ho').2
    obtain ⟨x, hx, hxkey⟩ := List.mem_map.mp hmem
    have hsame : x = o := List.inj_on_of_nodup_map hnodup (hsub.subset hx)
      (List.mem_filter.mp ho).1 (hxkey.trans hkey)
    have hwaits : o ∈ plan.waits := by simpa using (List.mem_filter.mp ho).2
    exact hapart o hwaits (hsame ▸ hx)

/-! ### What a build does with them -/

/-- The build ends an order it holds. -/
theorem Reached.endTaken {fresh : Bool} (outcome : Outcome)
    (h : Reached G (fun _ c ↦ c.Hands (o.key ::ₘ hands) ∧ (fresh = true → c.fresh = [])) s) :
    Reached G (fun _ c ↦ c.Hands hands ∧ (fresh = true → c.fresh = [])) (s.endTaken o outcome) := by
  refine h.step (.of_eq rfl rfl rfl) ?_
  rintro c ht hs ⟨hc, hfresh⟩ hlast
  have hmem : o.key ∈ c.held := hc.held ▸ Multiset.mem_cons_self _ _
  refine ⟨_, ?_, ?_, .single (.endHeld o.key hmem)⟩
  · refine ⟨?_, ht.placed, ht.rested, ?_, ht.refs, ht.seals⟩
    · exact congrArg (fun v : View ↦ { v with ended := o.pair :: v.ended }) ht.view
    · exact congrArg (List.cons o.key) ht.spent
  · refine ⟨⟨{ hc.calm with idle_eq := fun hb ↦ (by cases hb) }, hc.done, ?_⟩, hfresh⟩
    show c.held.erase o.key = hands
    rw [hc.held, Multiset.erase_cons_head]

/-- The build puts orders it holds back. -/
theorem Reached.giveBack {back : List Order}
    (h : Reached G (fun _ c ↦ c.Hands ((back.map Order.key : List OKey) + hands)) s) :
    Reached G (fun _ c ↦ c.Hands hands) { s with pending := back ++ s.pending } := by
  refine h.step (.of_eq rfl rfl rfl) ?_
  intro c ht hs hc hlast
  refine ⟨_, ?_, ?_, Relation.ReflTransGen.single
    (.giveBack (back.map Order.key) hands hc.held)⟩
  · refine { ht with view := ?_ }
    refine (congrArg (fun v : View ↦ { v with queue := back.map Order.key ++ v.queue })
      ht.view).trans ?_
    simp only [State.view, List.map_append]
    rfl
  · exact ⟨{ hc.calm with idle_eq := fun hb ↦ (by cases hb) }, hc.done, rfl⟩

/-- A build with nothing left is over. -/
theorem Reached.finish (h : Reached G (fun _ c ↦ c.Hands 0) s) :
    AtRest G { s with unsent := [], endedKeys := [] } := by
  refine h.step (.of_eq rfl rfl rfl) ?_
  intro c ht hs hc hlast
  refine ⟨_, ?_, ?_, .single (.finish hc.held)⟩
  · refine ⟨?_, ht.placed, ht.rested, rfl, ht.refs, ht.seals⟩
    exact congrArg (fun v : View ↦ { v with taken := [] }) ht.view
  · exact ⟨⟨hc.calm.due, hc.calm.reposted, hc.calm.lapsed, fun _ ↦ ⟨rfl, rfl, rfl⟩,
      fun hb ↦ (by cases hb)⟩, hc.done⟩

/-- A failed build puts back what it took and still owns. -/
theorem Reached.requeue (h : Reached G (fun _ c ↦ c.Calm false true ∧ c.done = []) s) :
    AtRest G s.requeueUnsent := by
  refine h.step (.of_eq rfl rfl rfl) ?_
  rintro c ht hs ⟨hcalm, hdone⟩ hlast
  have hqueue : c.queue = s.pending.map Order.key := congrArg View.queue ht.view
  have htaken : c.taken = s.unsent.map Order.key := congrArg View.taken ht.view
  set skip := s.endedKeys ++ (s.zombies.filter Round.sighted).flatMap Round.keys ++
    s.pending.map Order.key with hskip
  have hmem : ∀ k, k ∈ skip ↔ k ∈ c.spent ∨ k ∈ c.queue ∨
      ∃ z ∈ c.released, z.sighted = true ∧ k ∈ z.keys := by
    intro k
    rw [ht.spent, hqueue, ht.released]
    simp only [hskip, List.mem_append, List.mem_flatMap, List.mem_filter, List.mem_map]
    constructor
    · rintro ((hspent | ⟨z, ⟨hz, hsighted⟩, hk⟩) | hpending)
      · exact Or.inl hspent
      · exact Or.inr (Or.inr ⟨z.holding z.sighted, ⟨z, hz, rfl⟩, hsighted, hk⟩)
      · exact Or.inr (Or.inl hpending)
    · rintro (hspent | hpending | ⟨-, ⟨z, hz, rfl⟩, hsighted, hk⟩)
      · exact Or.inl (Or.inl hspent)
      · exact Or.inr hpending
      · exact Or.inl (Or.inr ⟨z, ⟨hz, hsighted⟩, hk⟩)
  refine ⟨_, ?_, ?_, Relation.ReflTransGen.single
    (.requeue (c.taken.filter fun k ↦ k ∉ skip) List.filter_sublist ?_ ?_)⟩
  · refine ⟨?_, ht.placed, ht.rested, rfl, ht.refs, ht.seals⟩
    refine (congrArg (fun v : View ↦
      { v with queue := (v.taken.filter fun k ↦ k ∉ skip) ++ v.queue, taken := [] })
        ht.view).trans ?_
    simp only [State.view, State.requeueUnsent, List.map_append, filter_key]
    rfl
  · exact ⟨⟨hcalm.due, hcalm.reposted, hcalm.lapsed, fun _ ↦ ⟨rfl, rfl, rfl⟩,
      fun hb ↦ (by cases hb)⟩, hdone⟩
  · intro k hk
    have hfree : k ∉ skip := by simpa using (List.mem_filter.mp hk).2
    rw [hmem] at hfree
    exact ⟨fun hspent ↦ hfree (Or.inl hspent), fun hpending ↦ hfree (Or.inr (Or.inl hpending)),
      fun z hz hsighted hk ↦ hfree (Or.inr (Or.inr ⟨z, hz, hsighted, hk⟩))⟩
  · intro k hk
    by_cases hin : k ∈ skip
    · exact Or.inr ((hmem k).mp hin)
    · exact Or.inl (List.mem_filter.mpr ⟨hk, by simpa using hin⟩)

/-- The build's round is submitted. -/
theorem Reached.submitted (hclaimed : ∀ k, rec.claimed k = none)
    (h : Reached G (fun s c ↦ c.Hands (rec.keys : List OKey) ∧ rec.ref = s.refs) s) :
    AtRest G (((s.note (.submitted (rec.holding false))).register rec).dropSame rec.rid) := by
  refine h.step (.noted rfl rfl rfl) ?_
  rintro c ht hs ⟨hc, href⟩ hlast
  have hG : G (.submitted (rec.holding false) c.toView) := by
    rw [ht.view]
    exact hlast.trace _ List.mem_cons_self
  refine ⟨_, ?_, ?_, .single (.register (rec.holding false)
    (hc.calm.alone_eq rfl) hc.held hclaimed (href.trans ht.refs.symm) hG)⟩
  · refine ⟨?_, ht.placed, ht.rested, rfl, congrArg Nat.succ ht.refs, ht.seals⟩
    have hview : c.toView = (s.note (.submitted (rec.holding false))).view :=
      ht.view.trans (view_note s rfl).symm
    refine (congrArg (fun v : View ↦ { v with
      flight := some (rec.holding false)
      released := v.released.filter fun z ↦ z.rid ≠ rec.rid ∨ z.sighted = true
      taken := [] }) hview).trans ?_
    simp only [State.view, List.filter_map]
    rfl
  · exact ⟨⟨hc.calm.due, hc.calm.reposted, hc.calm.lapsed, fun _ ↦ ⟨rfl, rfl, rfl⟩,
      fun hb ↦ (by cases hb)⟩, hc.done⟩

variable (orders : List Order) (now : Time)

/-- Every guarantor was busy: the round never left the builder. -/
theorem Reached.refused (h : Reached G (fun _ c ↦ c.Hands (rec.keys : List OKey)) s) :
    AtRest G (((s.note (.submitted (rec.holding false))).register rec).unregister rec now) := by
  refine h.step (.noted rfl rfl rfl) ?_
  intro c ht hs hc hlast
  have hheld : c.held = (rec.keys : List OKey) + 0 := by rw [hc.held, add_zero]
  have hflight := hc.calm.alone_eq rfl
  refine ⟨{ (c.giveBack rec.keys 0).finish with refs := c.refs + 1 }, ?_, ?_,
    ((Relation.ReflTransGen.single (.giveBack rec.keys 0 hheld)).tail (.finish rfl)).tail .skip⟩
  · refine ⟨?_, ht.placed, ht.rested, rfl, congrArg Nat.succ ht.refs, ht.seals⟩
    have hview : c.toView = (s.note (.submitted (rec.holding false))).view :=
      ht.view.trans (view_note s rfl).symm
    have hnone : s.inflight.map (fun fr ↦ fr.holding false) = none :=
      (congrArg View.flight ht.view).symm.trans hflight
    refine (congrArg (fun v : View ↦ { v with
      queue := rec.keys ++ v.queue, taken := [] }) hview).trans ?_
    simp only [State.view, State.unregister, State.register, State.note, hnone, List.map_append]
    rfl
  · exact ⟨⟨hc.calm.due, hc.calm.reposted, hc.calm.lapsed, fun _ ↦ ⟨rfl, rfl, rfl⟩,
      fun hb ↦ (by cases hb)⟩, hc.done⟩

/-! ### Pricing and the seq discipline -/

/-- A list of public orders is sifted into those kept and the dead ones. -/
structure Sifted (orders kept : List Order) (dead : List (Order × Dead)) : Prop where
  keys : ((kept ++ dead.map Prod.fst).map Order.key).Perm (orders.map Order.key)
  unsealed : (∀ o ∈ orders, o.sealed = false) → ∀ o ∈ kept, o.sealed = false

theorem priceMarketOrders_spec :
    Sat (Reached G fun _ c ↦ L c) (priceMarketOrders H orders)
      (fun out s ↦ Reached G (fun _ c ↦ L c) s ∧ Sifted orders out.1 out.2)
      (Reached G fun _ c ↦ L c) := by
  unfold priceMarketOrders
  refine Sat.ite (fun _ ↦ Sat.pure fun s h ↦ ⟨h, ⟨by simp, fun hall ↦ hall⟩⟩) fun _ ↦ ?_
  refine Sat.bind (readOnly_mstate H _).sat fun lp ↦ ?_
  refine Sat.ite (fun _ ↦ Sat.pure fun s h ↦ ⟨h, ?_, ?_⟩) fun _ ↦ ?_
  · rw [List.map_map, show Prod.fst ∘ (fun o : Order ↦ (o, Dead.unpriced)) = id from rfl,
      List.map_id]
    refine List.Perm.map _ (List.perm_append_comm.trans ?_)
    simpa using List.filter_append_perm (fun o : Order ↦ o.otype = .market) orders
  · exact fun hall o ho ↦ hall o (List.mem_of_mem_filter ho)
  · have hkey : ∀ o : Order,
        (if o.ref ∈ (orders.filter fun o ↦ o.otype = .market).map Order.ref then
        { o with price := marketPrice o.side lp } else o).key = o.key := fun o ↦ by
      split <;> rfl
    refine Sat.bind (Q := fun _ ↦ Reached G fun _ c ↦ L c)
      (Sat.update fun s h ↦ h.mapOrders hkey) fun _ ↦ Sat.pure fun s h ↦ ⟨h, ?_, ?_⟩
    · rw [List.map_nil, List.append_nil, List.map_map]
      exact (List.map_congr_left fun o _ ↦ hkey o) ▸ List.Perm.refl _
    · intro hall o ho
      obtain ⟨x, hx, rfl⟩ := List.mem_map.mp ho
      have hsealed := hall x hx
      split <;> exact hsealed

theorem sanitizeEach_spec (floors running : UInt32 → Option ℕ) :
    Sat P (sanitizeEach H orders floors running)
      (fun out s ↦ P s ∧ Sifted orders out.1 out.2) P := by
  induction orders generalizing floors running with
  | nil => exact Sat.pure fun s h ↦ ⟨h, ⟨List.Perm.refl _, fun hall ↦ hall⟩⟩
  | cons o orders ih =>
    -- one order joins the dead or the kept ones
    have hdead : ∀ (why : Dead) (out : List Order × List (Order × Dead)),
        Sifted orders out.1 out.2 → Sifted (o :: orders) out.1 ((o, why) :: out.2) :=
      fun why out h ↦ ⟨by
        simp only [List.map_cons, List.map_append]
        refine List.perm_middle.trans (List.Perm.cons _ ?_)
        simpa using h.keys, fun hall ↦ h.unsealed fun x hx ↦ hall x (List.mem_cons_of_mem _ hx)⟩
    have hkept : ∀ out : List Order × List (Order × Dead),
        Sifted orders out.1 out.2 → Sifted (o :: orders) (o :: out.1) out.2 := fun out h ↦
      ⟨List.Perm.cons _ h.keys, fun hall x hx ↦ by
        rcases List.mem_cons.mp hx with rfl | hx
        · exact hall x List.mem_cons_self
        · exact h.unsealed (fun y hy ↦ hall y (List.mem_cons_of_mem _ hy)) x hx⟩
    unfold sanitizeEach
    refine Sat.bind (Q := fun _ ↦ P) ?_ fun floor ↦ ?_
    · split
      · exact Sat.pure fun s h ↦ h
      · exact (readOnly_mstate H _).sat
    refine Sat.ite (fun _ ↦ ?_) fun _ ↦ Sat.ite (fun _ ↦ ?_) fun _ ↦ ?_
    · exact Sat.bind (ih _ _) fun out ↦ Sat.pure fun s h ↦ ⟨h.1, hdead _ out h.2⟩
    · exact Sat.bind (ih _ _) fun out ↦ Sat.pure fun s h ↦ ⟨h.1, hdead _ out h.2⟩
    · exact Sat.bind (ih _ _) fun out ↦ Sat.pure fun s h ↦ ⟨h.1, hkept out h.2⟩

theorem seqSanitize_spec :
    Sat P (seqSanitize H orders) (fun out s ↦ P s ∧ Sifted orders out.1 out.2) P := by
  refine (sanitizeEach_spec H _ _ _).conseq (fun _ h ↦ h) (fun out s h ↦ ⟨h.1, ?_, ?_⟩)
    fun _ h ↦ h
  · exact h.2.keys.trans ((List.perm_insertionSort _ _).map _)
  · exact fun hall ↦ h.2.unsealed fun o ho ↦
      hall o ((List.perm_insertionSort _ _).mem_iff.mp ho)

/-! ### Assembling the round -/

/-- Another look at the released rounds takes what they claim out of the build's hands. -/
theorem watchReleased_spec {idle alone : Bool} {hands : Multiset OKey} :
    Sat (Reached G fun _ c ↦ c.Calm idle alone ∧ c.done = [] ∧ c.held = hands ∧
        (c.taken = [] ∨ c.fresh = []))
      (watchReleased H)
      (fun claimed ↦ Reached G fun _ c ↦ c.Calm idle alone ∧ c.done = [] ∧
        c.held = hands.filter fun k ↦ k ∉ claimed)
      (Reached G fun _ c ↦ c.Calm idle alone ∧ c.done = []) := by
  unfold watchReleased
  refine Sat.current fun t ↦ Sat.ite (fun _ ↦ Sat.pure fun s h ↦ ?_) fun _ ↦ ?_
  · exact h.1.weaken fun c _ hc ↦ ⟨hc.1, hc.2.1, by simpa using hc.2.2.1⟩
  · refine Sat.bind (Q := fun _ ↦ Reached G fun _ c ↦ c.Calm idle alone ∧ c.done = [] ∧
      c.held = hands ∧ (c.taken = [] ∨ c.fresh = [])) (Sat.answer fun _ _ h ↦ h.1) fun now ↦ ?_
    exact resolveZombies_spec H now

/-- Ending orders the build holds, one after the other. -/
theorem endEach_spec {α : Type} {R : State → Prop} (order : α → Order) (outcome : Outcome)
    {hands : Multiset OKey} {fresh : Bool} (entries : List α) :
    Sat (Reached G fun _ c ↦ c.Hands ((entries.map fun e ↦ (order e).key : List OKey) + hands) ∧
        (fresh = true → c.fresh = []))
      (forEach (fun e ↦ update fun s ↦ s.endTaken (order e) outcome) entries)
      (fun _ ↦ Reached G fun _ c ↦ c.Hands hands ∧ (fresh = true → c.fresh = [])) R := by
  set P : List α → State → Prop := fun rest ↦ Reached G fun _ c ↦
    c.Hands ((rest.map fun e ↦ (order e).key : List OKey) + hands) ∧ (fresh = true → c.fresh = [])
    with hP
  have hloop : Sat (P entries)
      (forEach (fun e ↦ update fun s ↦ s.endTaken (order e) outcome) entries)
      (fun _ ↦ P []) R := by
    refine Sat.forEachRest fun e rest ↦ Sat.update fun s h ↦ ?_
    refine Reached.endTaken outcome (Reached.weaken h fun c _ hc ↦ ?_)
    rw [List.map_cons, ← Multiset.cons_coe, Multiset.cons_add] at hc
    exact hc
  refine hloop.conseq (fun _ h ↦ h) (fun _ s h ↦ Reached.weaken h fun c _ hc ↦ ?_) fun _ h ↦ h
  simpa using hc

/-- A sealed order without a counterparty goes back. -/
theorem keepCrossing_spec {R : State → Prop} (sealedOrders publicOrders resting : List Order)
    (now : Time) (hsealed : ∀ o ∈ sealedOrders, o.sealed = true)
    (hpublic : ∀ o ∈ publicOrders, o.sealed = false) :
    Sat (Reached G fun _ c ↦ c.Hands ((sealedOrders ++ publicOrders).map Order.key : List OKey))
      (keepCrossing sealedOrders publicOrders resting now)
      (fun kept ↦ Reached G fun _ c ↦ c.Hands ((kept ++ publicOrders).map Order.key : List OKey))
      R := by
  unfold keepCrossing
  refine Sat.ite (fun _ ↦ ?_) fun _ ↦ Sat.pure fun s h ↦ h
  set kept := (planRound (sealedOrders ++ publicOrders) resting now fun _ ↦ true).reveal with hkept
  set crosses := planCrosses (sealedOrders ++ publicOrders) resting fun _ ↦ true with hcrosses
  have heq : kept = sealedOrders.filter crosses :=
    reveal_batch_eq_filter resting now hsealed hpublic
  have hback : (sealedOrders.filter fun o ↦ o ∉ kept) = sealedOrders.filter fun o ↦ !crosses o := by
    refine List.filter_congr fun o ho ↦ ?_
    rw [heq]
    cases hc : crosses o <;> simp [ho, hc]
  have hsplit : ((sealedOrders.filter fun o ↦ o ∉ kept) ++ kept).Perm sealedOrders := by
    rw [hback, heq]
    exact List.perm_append_comm.trans (List.filter_append_perm _ _)
  refine Sat.bind (Q := fun _ ↦ Reached G fun _ c ↦
    c.Hands ((kept ++ publicOrders).map Order.key : List OKey)) (Sat.update fun s h ↦ ?_) fun _ ↦
    Sat.pure fun s h ↦ h
  refine Reached.giveBack (h.weaken fun c _ hc ↦ ?_)
  have hperm : ((sealedOrders.filter fun o ↦ o ∉ kept) ++ (kept ++ publicOrders)).Perm
      (sealedOrders ++ publicOrders) := by
    rw [← List.append_assoc]
    exact hsplit.append_right _
  rw [Multiset.coe_add, ← List.map_append, Multiset.coe_eq_coe.mpr (hperm.map Order.key)]
  exact hc

theorem readOnly_roundPayload (sealedOrders : List Order) (pubSection : Bytes) :
    ReadOnly (roundPayload H sealedOrders pubSection) :=
  ReadOnly.ite (ReadOnly.pure _) (ReadOnly.ite (ReadOnly.ask _) (ReadOnly.ofOption _))

variable (G) in
/-- Where a failed build leaves custody, before it puts its orders back. -/
def Failing : State → Prop := Reached G fun _ c ↦ c.Calm false true ∧ c.done = []

theorem Reached.failing {hands : State → Multiset OKey}
    (h : Reached G (fun s c ↦ c.Hands (hands s)) s) : Failing G s :=
  h.weaken fun _ _ hc ↦ ⟨hc.calm, hc.done⟩

variable (G) in
/-- What a build comes to: nothing to submit, or a round with everything it holds. -/
def Assembled : Option (Round × Bytes) → State → Prop
  | none, s => Reached G (fun _ c ↦ c.Hands 0) s
  | some (rec, _), s =>
    Reached G (fun s c ↦ c.Hands (rec.keys : List OKey) ∧ rec.ref = s.refs) s ∧
      ∀ k, rec.claimed k = none

/-- What is left of the build's hands after the claims, sorted. -/
theorem filter_hands {reveal publicOrders priced kept : List Order}
    {unpriced stale : List (Order × Dead)} (hprice : Sifted publicOrders priced unpriced)
    (hsift : Sifted priced kept stale) (claimed : List OKey) :
    (((reveal ++ publicOrders).map Order.key : List OKey) : Multiset OKey).filter
        (fun k ↦ k ∉ claimed) =
      (((unpriced ++ stale).filter fun e ↦ e.1.key ∉ claimed).map fun e ↦ e.1.key : List OKey) +
        (((reveal.filter fun o ↦ o.key ∉ claimed) ++
          kept.filter fun o ↦ o.key ∉ claimed).map Order.key : List OKey) := by
  have hdead : ∀ dead : List (Order × Dead),
      ((dead.filter fun e ↦ e.1.key ∉ claimed).map fun e ↦ e.1.key) =
        ((dead.map Prod.fst).map Order.key).filter fun k ↦ k ∉ claimed := fun dead ↦ by
    rw [List.map_map, List.filter_map]
    rfl
  have hkeys : (((reveal ++ publicOrders).map Order.key)).Perm
      (((unpriced ++ stale).map Prod.fst).map Order.key ++ (reveal ++ kept).map Order.key) := by
    have hall := hprice.keys.symm
    have hrest := hsift.keys.symm
    simp only [List.map_append] at hall hrest ⊢
    rw [← Multiset.coe_eq_coe] at hall hrest ⊢
    simp only [← Multiset.coe_add] at hall hrest ⊢
    rw [hall, hrest]
    ac_rfl
  rw [hdead, ← List.filter_append, filter_key, Multiset.coe_add, ← List.filter_append,
    Multiset.coe_eq_coe.mpr hkeys, Multiset.filter_coe]

/-- The rest of a build once its orders are out of the mempool. -/
theorem assembleRound_spec (raw : Bytes) (pruned : List Pair) (plan : RoundPlan)
    (resting : List Order) (hsealed : ∀ o ∈ plan.reveal, o.sealed = true)
    (hpublic : ∀ o ∈ plan.publicOrders, o.sealed = false) :
    Sat (Reached G fun _ c ↦
        c.Hands ((plan.reveal ++ plan.publicOrders).map Order.key : List OKey) ∧ c.fresh = [])
      (assembleRound H now raw pruned plan resting) (Assembled G) (Failing G) := by
  set P : State → Prop := Reached G fun _ c ↦
    c.Hands ((plan.reveal ++ plan.publicOrders).map Order.key : List OKey) ∧ c.fresh = [] with hP
  have hfail : ∀ s, P s → Failing G s := fun s h ↦ h.weaken fun _ _ hc ↦ ⟨hc.1.calm, hc.1.done⟩
  unfold assembleRound
  refine Sat.bind (Q := fun out s ↦ P s ∧ Sifted plan.publicOrders out.1 out.2)
    ((priceMarketOrders_spec H _).raising hfail) ?_
  rintro ⟨priced, unpriced⟩
  refine Sat.assume fun hprice ↦ ?_
  refine Sat.bind (Q := fun out s ↦ P s ∧ Sifted priced out.1 out.2)
    ((seqSanitize_spec H _).raising hfail) ?_
  rintro ⟨kept, stale⟩
  refine Sat.assume fun hsift ↦ ?_
  refine Sat.bind ((@watchReleased_spec G H false true
    ((plan.reveal ++ plan.publicOrders).map Order.key : List OKey)).conseq
    (fun _ h ↦ h.weaken fun _ _ hc ↦ ⟨hc.1.calm, hc.1.done, hc.1.held, Or.inr hc.2⟩)
    (fun _ _ h ↦ h) fun _ h ↦ h) fun claimed ↦ ?_
  dsimp only
  refine Sat.bind (Q := fun _ ↦ Reached G fun _ c ↦ c.Hands
    (((plan.reveal.filter fun o ↦ o.key ∉ claimed) ++
      kept.filter fun o ↦ o.key ∉ claimed).map Order.key : List OKey)) ?_ fun _ ↦ ?_
  · have hends := @endEach_spec G (Order × Dead) (Failing G) Prod.fst .rejected
      (((plan.reveal.filter fun o ↦ o.key ∉ claimed) ++
        kept.filter fun o ↦ o.key ∉ claimed).map Order.key : List OKey) false
      ((unpriced ++ stale).filter fun e ↦ e.1.key ∉ claimed)
    refine hends.conseq (fun s h ↦ h.weaken fun c _ hc ↦ ?_)
      (fun _ s h ↦ h.weaken fun c _ hc ↦ hc.1) fun _ h ↦ h
    rw [filter_hands hprice hsift] at hc
    exact ⟨⟨hc.1, hc.2.1, hc.2.2⟩, fun hb ↦ (by cases hb)⟩
  refine Sat.bind (keepCrossing_spec _ _ resting now
    (fun o ho ↦ hsealed o (List.mem_of_mem_filter ho))
    (fun o ho ↦ hsift.unsealed (hprice.unsealed hpublic) o (List.mem_of_mem_filter ho)))
    fun sealedOrders ↦ ?_
  refine Sat.ite (fun hnone ↦ ?_) fun _ ↦ ?_
  · have hread : ∀ s, Reached G (fun _ c ↦ c.Hands ((sealedOrders ++
        kept.filter fun o ↦ o.key ∉ claimed).map Order.key : List OKey)) s → Failing G s :=
      fun s h ↦ h.failing
    refine Sat.bind ((readOnly_mstate H _).sat.raising hread) fun _ ↦ ?_
    refine Sat.bind ((readOnly_mstate H _).sat.raising hread) fun _ ↦ ?_
    refine Sat.bind ((ReadOnly.ask _).sat.raising hread) fun _ ↦ ?_
    refine Sat.pure fun s h ↦ ?_
    show Reached G (fun _ c ↦ c.Hands 0) s
    rw [hnone.1, hnone.2.1] at h
    exact h
  · refine Sat.bind ((ReadOnly.ofOption _).sat.raising fun _ h ↦ h.failing) fun pubSection ↦ ?_
    refine Sat.bind (Sat.rescue (readOnly_roundPayload H _ _).sat ?_) fun payload ↦ ?_
    · refine Sat.bind (Sat.answer fun _ _ h ↦ h) fun t ↦ Sat.update fun s h ↦ ?_
      exact (h.setGate (some t)).failing
    refine Sat.bind (Sat.answer fun _ _ h ↦ h) fun t ↦ Sat.current fun s₀ ↦ Sat.pure ?_
    rintro s ⟨h, rfl⟩
    exact ⟨h.weaken fun c _ hc ↦ ⟨hc, rfl⟩, fun _ ↦ rfl⟩

/-! ### Building -/

/-- The cool-down. -/
theorem passGate_spec :
    Sat (Reached G fun _ c ↦ L c) (passGate H) (fun _ ↦ Reached G fun _ c ↦ L c) R := by
  unfold passGate
  refine Sat.current fun s₀ ↦ ?_
  cases s₀.roundGate with
  | none => exact Sat.pure fun s h ↦ h.1
  | some start =>
    refine Sat.bind (Q := fun _ ↦ Reached G fun _ c ↦ L c) (Sat.answer fun _ _ h ↦ h.1) fun now ↦ ?_
    refine Sat.ite (fun _ ↦ Sat.pure fun s h ↦ h) fun _ ↦ ?_
    exact Sat.bind (Q := fun _ ↦ Reached G fun _ c ↦ L c) (Sat.update fun s h ↦ h.setGate none)
      fun _ ↦ Sat.pure fun s h ↦ h

/-- Deciding the round and taking its orders. -/
theorem planStep_spec :
    Sat (Reached G fun _ c ↦ c.Calm true true ∧ c.done = []) (planStep H now)
      (fun out s ↦ Reached G (fun _ c ↦ c.Hands (out.1.leaves.map Order.key : List OKey) ∧
          c.fresh = []) s ∧
        (∀ o ∈ out.1.reveal, o.sealed = true) ∧ ∀ o ∈ out.1.publicOrders, o.sealed = false)
      (Reached G fun _ c ↦ c.Calm true true ∧ c.done = []) := by
  set P : State → Prop := Reached G fun _ c ↦ c.Calm true true ∧ c.done = [] with hP
  unfold planStep
  refine Sat.bind (ReadOnly.ask _).sat fun raw ↦ ?_
  refine Sat.bind (readOnly_time H).sat fun t ↦ Sat.current fun s₀ ↦ ?_
  refine Sat.bind (Q := fun _ ↦ P) ((ReadOnly.ask _).sat.conseq (fun _ h ↦ h.1) (fun _ _ h ↦ h)
    fun _ h ↦ h) fun entries ↦ ?_
  refine Sat.bind (ReadOnly.ask _).sat fun fin ↦ ?_
  refine Sat.bind (Q := fun _ ↦ P) ?_ fun finalRaw ↦ ?_
  · exact Sat.ite (fun _ ↦ (ReadOnly.ask _).sat) fun _ ↦ (ReadOnly.pure _).sat
  refine Sat.bind (Q := fun _ ↦ P) ?_ fun ready ↦ ?_
  · unfold sealedReadyPredicate
    split
    · exact (ReadOnly.pure _).sat
    · refine Sat.bind (Q := fun _ ↦ P) (Sat.update fun s h ↦ h.pinCommits _ _) fun _ ↦ ?_
      exact (ReadOnly.current.bind fun _ ↦ ReadOnly.pure _).sat
  refine Sat.bind (Q := fun _ ↦ P) ?_ fun committee ↦ ?_
  · refine Sat.ite (fun _ ↦ ?_) fun _ ↦ (ReadOnly.pure _).sat
    exact ((ReadOnly.ask _).bind fun _ ↦ ReadOnly.pure _ : ReadOnly (committeeSize H)).sat
  refine Sat.bind (Q := fun _ ↦ P) (Sat.update fun s h ↦ h.attachExpiry) fun _ ↦ ?_
  refine Sat.current fun s₁ ↦ ?_
  dsimp only
  have hfit := fit_subperm H committee s₁.encCap
  refine Sat.bind (Q := fun _ s ↦ Reached G (fun _ c ↦ c.Hands
    ((planBatch s₁.pending ((parseBook raw).filter fun o ↦ o.pair ∉ s₀.expiredPairs t raw)
      (H.fit committee s₁.encCap) now ready).leaves.map Order.key : List OKey) ∧ c.fresh = []) s)
    (Sat.update ?_) fun _ ↦ Sat.pure fun s h ↦ ⟨h, ?_, ?_⟩
  · rintro s ⟨h, rfl⟩
    exact h.takeBatch (leaves_subperm hfit) (fun o ho ↦ mem_waits_or_leaves ho)
      fun o ho ↦ waits_disjoint_leaves hfit ho
  · exact fun o ho ↦ (ready_of_reveal hfit ho).1
  · exact fun o ho ↦ open_of_public hfit ho

/-- Putting a round in flight. -/
theorem submitRound_spec (rec : Round) (payload : Bytes) (hclaimed : ∀ k, rec.claimed k = none) :
    Sat (Reached G fun s c ↦ c.Hands (rec.keys : List OKey) ∧ rec.ref = s.refs)
      (submitRound H rec payload) (fun _ ↦ AtRest G) R := by
  set P : State → Prop := Reached G fun s c ↦ c.Hands (rec.keys : List OKey) ∧ rec.ref = s.refs
  unfold submitRound
  refine Sat.bind (Q := fun _ s ↦ ∃ s₀, P s₀ ∧ s = s₀.note (.submitted (rec.holding false)))
    (Sat.update fun s h ↦ ⟨s, h, rfl⟩) fun _ ↦ ?_
  refine Sat.bind (Q := fun _ s ↦ ∃ s₀, P s₀ ∧
    s = (s₀.note (.submitted (rec.holding false))).register rec) (Sat.update ?_) fun _ ↦ ?_
  · rintro s ⟨s₀, h, rfl⟩
    exact ⟨s₀, h, rfl⟩
  refine Sat.bind (Sat.answer fun _ _ h ↦ h) fun sent ↦ ?_
  have hqueued : Sat (fun s ↦ ∃ s₀, P s₀ ∧
      s = (s₀.note (.submitted (rec.holding false))).register rec)
      (do
        update fun s ↦ s.dropSame rec.rid
        pure Reply.queued : B Reply) (fun _ ↦ AtRest G) R := by
    refine Sat.bind (Q := fun _ ↦ AtRest G) (Sat.update ?_) fun _ ↦
      Sat.pure fun s h ↦ h
    rintro s ⟨s₀, h, rfl⟩
    exact h.submitted hclaimed
  cases sent with
  | accepted | failed => exact hqueued
  | busy =>
    refine Sat.bind (Sat.answer fun _ _ h ↦ h) fun now ↦ ?_
    refine Sat.bind (Q := fun _ ↦ AtRest G) (Sat.update ?_) fun _ ↦
      Sat.pure fun s h ↦ h
    rintro s ⟨s₀, h, rfl⟩
    exact Reached.refused now (h.weaken fun c _ hc ↦ hc.1)

/-- One build. -/
theorem buildRound_spec : Sat (AtRest G) (buildRound H) (fun _ ↦ AtRest G) (AtRest G) := by
  set P : State → Prop := Reached G fun _ c ↦ c.Calm true true ∧ c.done = [] with hP
  have hidle : ∀ s, P s → AtRest G s := fun s h ↦ h.weaken fun c _ hc ↦
    ⟨{ hc.1 with alone_eq := fun hb ↦ (by cases hb) }, hc.2⟩
  unfold buildRound
  refine Sat.current fun s₀ ↦ ?_
  cases hflight : s₀.inflight with
  | some fr => exact Sat.pure fun s h ↦ h.1
  | none =>
    refine Sat.bind (Q := fun _ ↦ P) ?_ fun passed ↦ ?_
    · refine (passGate_spec H).weaken ?_
      rintro s ⟨h, rfl⟩
      refine h.weaken fun c ht hc ↦ ⟨{ hc.calm with alone_eq := fun _ ↦ ?_ }, hc.done⟩
      rw [show c.flight = s.inflight.map _ from congrArg View.flight ht.view, hflight]
      rfl
    refine Sat.ite (fun _ ↦ ?_) fun _ ↦ Sat.pure hidle
    refine Sat.bind (Q := fun _ ↦ P) ?_ fun _ ↦ ?_
    · refine (@watchReleased_spec G H true true 0).conseq (fun s h ↦ h.weaken fun c _ hc ↦ ?_)
        (fun _ s h ↦ h.weaken fun c _ hc ↦ ⟨hc.1, hc.2.1⟩) hidle
      exact ⟨hc.1, hc.2, (hc.1.idle_eq rfl).1, Or.inl (hc.1.idle_eq rfl).2.1⟩
    refine Sat.bind (Q := fun _ ↦ P) (Sat.answer fun _ _ h ↦ h) fun now ↦ ?_
    refine Sat.bind ((planStep_spec H now).raising hidle) ?_
    rintro ⟨plan, resting, raw, pruned⟩
    refine Sat.assume fun ⟨hsealed, hpublic⟩ ↦ ?_
    refine Sat.bind (Q := Assembled G) (Sat.rescue ?_
      (Sat.update (P := Failing G) fun s h ↦ Reached.requeue h)) fun assembled ↦ ?_
    · refine Sat.bind ?_ fun _ ↦ assembleRound_spec H now raw pruned plan resting hsealed hpublic
      have hends := @endEach_spec G Order (Failing G) id .expired
        ((plan.reveal ++ plan.publicOrders).map Order.key : List OKey) true plan.expired
      refine hends.conseq (fun s h ↦ h.weaken fun c _ hc ↦ ⟨?_, fun _ ↦ hc.2⟩)
        (fun _ s h ↦ h.weaken fun c _ hc ↦ ⟨hc.1, hc.2 rfl⟩) fun _ h ↦ h
      have hleaves : (plan.leaves.map Order.key : Multiset OKey) =
          (plan.expired.map fun o ↦ (id o).key : List OKey) +
            ((plan.reveal ++ plan.publicOrders).map Order.key : List OKey) := by
        rw [RoundPlan.leaves, List.map_append, ← Multiset.coe_add, add_comm]
        rfl
      rw [← hleaves]
      exact hc.1
    · cases assembled with
      | none =>
        exact Sat.bind (Q := fun _ ↦ AtRest G)
          (Sat.update fun s h ↦ Reached.finish h) fun _ ↦ Sat.pure fun s h ↦ h
      | some out =>
        exact Sat.assume fun hclaimed ↦ submitRound_spec H out.1 out.2 hclaimed

/-! ### Cancelling and placing -/

theorem readOnly_anyCanLand (zombies : List Round) : ReadOnly (anyCanLand H zombies) := by
  induction zombies with
  | nil => exact ReadOnly.pure _
  | cons z zombies ih =>
    refine ReadOnly.ite (ReadOnly.pure _) ((readOnly_roundDead H z).bind fun _ ↦ ?_)
    exact ReadOnly.ite (ReadOnly.pure _) ih

/-- Orders of one account and id leave the mempool, ended. -/
theorem Reached.cancelled (h : AtRest G s) :
    AtRest G ((s.pending.filter fun o ↦ o.pair = p).foldl
        (fun s o ↦ (s.popExpiry o.pair).log (.terminal o.pair .cancelled))
        { s with pending := s.pending.filter fun o ↦ o.pair ≠ p }) := by
  obtain ⟨expiry, heq⟩ := foldl_ended Order.pair .cancelled (s.pending.filter fun o ↦ o.pair = p)
    { s with pending := s.pending.filter fun o ↦ o.pair ≠ p }
  rw [heq, List.map_reverse]
  set hits := s.pending.filter fun o ↦ o.pair = p with hhits
  have hnone : ∀ pick : Event → Option Pair, (∀ o, pick (.terminal o .cancelled) = none) →
      (hits.map fun o ↦ Event.terminal o.pair .cancelled).reverse.filterMap pick = [] := by
    intro pick hpick
    refine List.filterMap_eq_nil_iff.mpr fun e he ↦ ?_
    obtain ⟨o, -, rfl⟩ := List.mem_map.mp (List.mem_reverse.mp he)
    exact hpick o.pair
  have hplaced : State.placed { s with
      pending := s.pending.filter fun o ↦ o.pair ≠ p, orderExpiry := expiry
      events := (hits.map fun o ↦ Event.terminal o.pair .cancelled).reverse ++ s.events } =
      s.placed := by
    rw [State.placed, List.filterMap_append, hnone _ fun _ ↦ rfl]
    rfl
  refine h.step ⟨List.suffix_refl _, hplaced ▸ List.suffix_refl _, List.suffix_refl _⟩ ?_
  intro c ht hs hc hlast
  refine ⟨_, ?_, ?_, .single (.cancel p (hc.calm.idle_eq rfl).2.1)⟩
  · refine ⟨?_, ht.placed.trans hplaced.symm, ht.rested.trans ?_, ht.spent, ht.refs, ht.seals⟩
    · refine (congrArg (fun v : View ↦ { v with
        queue := v.queue.filter fun k : OKey ↦ k.pair ≠ p
        ended := (v.queue.filter fun k : OKey ↦ k.pair = p).map OKey.pair ++ v.ended })
        ht.view).trans ?_
      simp only [State.view, State.ended, List.filterMap_append, View.mk.injEq, and_true, true_and]
      refine ⟨?_, congrArg (· ++ _) ?_⟩
      · rw [List.filter_map]
        rfl
      · -- every pair told is `p`, so their order does not matter
        have hpairs : hits.map Order.pair = List.replicate hits.length p := by
          refine List.eq_replicate_iff.mpr ⟨List.length_map _, fun q hq ↦ ?_⟩
          obtain ⟨o, ho, rfl⟩ := List.mem_map.mp hq
          simpa using (List.mem_filter.mp ho).2
        have htold : (hits.map fun o ↦ Event.terminal o.pair .cancelled).reverse.filterMap
            Event.terminal? = (hits.map Order.pair).reverse := by
          rw [List.filterMap_reverse, List.filterMap_map]
          exact congrArg List.reverse (List.filterMap_eq_map' ▸ rfl)
        rw [htold, hpairs, List.reverse_replicate, ← hpairs, List.filter_map, List.map_map]
        rfl
    · rw [State.rested, State.rested, List.filterMap_append, hnone _ fun _ ↦ rfl]
      rfl
  · exact ⟨{ hc.calm with }, hc.done⟩

theorem cancelPending_spec (p : Pair) :
    Sat (AtRest G) (cancelPending H p) (fun _ ↦ AtRest G) (AtRest G) := by
  unfold cancelPending
  refine Sat.current fun s₀ ↦ Sat.ite (fun _ ↦ Sat.pure fun s h ↦ h.1) fun _ ↦ ?_
  refine Sat.bind ((readOnly_anyCanLand H _).sat.raising fun _ h ↦ h.1) fun blocked ↦ ?_
  refine Sat.ite (fun _ ↦ Sat.raise fun s h ↦ h.1) fun _ ↦ ?_
  have hloop : (forEach (fun o : Order ↦ do
      update fun s : State ↦ s.popExpiry o.pair
      recordExec o.pair .cancelled) (s₀.pending.filter fun o ↦ o.pair = p) : B Unit) =
      update fun s ↦ (s₀.pending.filter fun o ↦ o.pair = p).foldl
        (fun s o ↦ (s.popExpiry o.pair).log (.terminal o.pair .cancelled)) s :=
    forEach_update _ _
  rw [hloop, update_update]
  refine Sat.update ?_
  rintro s ⟨h, rfl⟩
  exact h.cancelled

theorem readOnly_submitSignedCommit (q : Request) (o : Order) :
    ReadOnly (submitSignedCommit H q o) := by
  refine (ReadOnly.ask _).bind fun pk ↦ ReadOnly.ite ReadOnly.raise ?_
  exact (ReadOnly.ask _).bind fun _ ↦ ReadOnly.ite (ReadOnly.pure _) ReadOnly.raise

/-- An order is queued. -/
theorem Reached.placed (hpair : o.pair = p) (hcommit : ∀ x, o.commit = some x → x ∈ s.seals)
    (h : AtRest G s) :
    AtRest G ({ s.note (.placed o.key) with pending := s.pending ++ [o] }.log (.placed p)) := by
  refine h.step ⟨List.suffix_refl _, List.suffix_cons _ _, List.suffix_cons _ _⟩ ?_
  intro c ht hs hc hlast
  have hnew : o.key.pair ∉ c.placed := by
    rw [ht.placed, show o.key.pair = p from hpair]
    exact (List.nodup_cons.mp hlast.placed).1
  have hG : G (.placed o.key c.toView) := by
    rw [ht.view]
    exact hlast.trace _ List.mem_cons_self
  refine ⟨_, ?_, ?_, Relation.ReflTransGen.single
    (.place o.key (hc.calm.idle_eq rfl).2.1 hnew hG)⟩
  · refine ⟨?_, ?_, ht.rested, ht.spent, ht.refs, fun k hk x hx ↦ ?_⟩
    · have hview : c.toView = (s.note (.placed o.key)).view := ht.view.trans (view_note s rfl).symm
      refine (congrArg (fun v : View ↦ { v with queue := v.queue ++ [o.key] }) hview).trans ?_
      simp only [State.view, State.log, State.note, List.map_append]
      rfl
    · show o.key.pair :: c.placed = p :: s.placed
      rw [ht.placed, show o.key.pair = p from hpair]
    · rcases List.mem_cons.mp hk with rfl | hk
      · exact hcommit x hx
      · exact ht.seals k hk x hx
  · exact ⟨{ hc.calm with }, hc.done⟩

theorem placeOrder_spec (q : Request) :
    Sat (AtRest G) (placeOrder H q) (fun _ ↦ AtRest G) (AtRest G) := by
  unfold placeOrder
  refine Sat.bind (Q := fun _ ↦ AtRest G) (Sat.answer fun _ _ h ↦ h)
    fun refused ↦ Sat.ite (fun _ ↦ Sat.raise fun s h ↦ h) fun _ ↦ ?_
  refine Sat.current fun s₀ ↦ ?_
  -- the order with its seal, if it has one
  refine Sat.bind (Q := fun o s ↦ AtRest G s ∧
    (∀ x, o.commit = some x → x ∈ s.seals) ∧ o.pair = q.pair) ?_ fun o ↦ ?_
  · refine Sat.ite (fun _ ↦ ?_) fun _ ↦ Sat.pure fun s h ↦ ⟨h.1, fun x hx ↦ (by cases hx), rfl⟩
    refine Sat.ofEach ?_
    rintro s ⟨h, -⟩
    refine (sealMaterial_spec H _ s).conseq (fun _ hs ↦ hs) ?_ fun s' hs' ↦ hs' ▸ h
    rintro o s' ⟨x, rfl, ho, hpair⟩
    refine ⟨?_, fun y hy ↦ ?_, hpair⟩
    · exact h.silent rfl rfl rfl rfl rfl (List.suffix_cons _ _) (List.suffix_refl _)
        fun _ _ hc ↦ hc
    · have heq : x = y := Option.some.inj (ho.symm.trans hy)
      exact heq ▸ List.mem_cons_self
  set P : State → Prop := fun s ↦ AtRest G s ∧
    (∀ x, o.commit = some x → x ∈ s.seals) ∧ o.pair = q.pair with hP
  refine Sat.bind (Q := fun _ ↦ P) (Sat.answer fun _ _ h ↦ h) fun now ↦ ?_
  refine Sat.bind (Q := fun _ ↦ P) (Sat.update fun s h ↦ ⟨?_, h.2⟩) fun _ ↦ ?_
  · exact h.1.silent rfl rfl rfl rfl rfl (List.suffix_refl _) (List.suffix_refl _) fun _ _ hc ↦ hc
  refine Sat.bind (Q := fun _ ↦ P) ?_ fun _ ↦ ?_
  · refine Sat.when (fun _ ↦ ?_) fun _ s h ↦ h
    exact (readOnly_submitSignedCommit H q o).sat.raising fun _ h ↦ h.1
  rw [update_update]
  exact Sat.update fun s h ↦ h.1.placed h.2.2 h.2.1

/-! ### Runs -/

theorem perform_spec (a : Action) : Sat (AtRest G) (perform H a) (fun _ ↦ AtRest G) (AtRest G) := by
  cases a with
  | place q => exact placeOrder_spec H q
  | cancel p => exact cancelPending_spec H p
  | build => exact Sat.bind (buildRound_spec H) fun _ ↦ Sat.pure fun s h ↦ h
  | sweep => exact resolveRoundsOnce_spec H

theorem step_reached (w : ℕ × State) (a : Action) (h : AtRest G w.2) : AtRest G (step H w a).2 :=
  (perform_spec H a).final w.1 h

/-- Every state of every run is one the custody protocol reaches,
whatever the environment answers. -/
theorem run_reached (actions : List Action) : AtRest G (run H actions) := by
  refine List.foldlRecOn (motive := fun w ↦ AtRest G w.2) actions (step H) (fun _ ↦ ?_)
    fun w h a _ ↦ step_reached H w a h
  refine ⟨Custody.initial, ?_, ?_, .refl⟩
  · exact ⟨rfl, rfl, rfl, rfl, rfl, fun k hk ↦ (by cases hk)⟩
  · exact ⟨⟨rfl, rfl, rfl, fun _ ↦ ⟨rfl, rfl, rfl⟩, fun hb ↦ (by cases hb)⟩, rfl⟩

end Build

end Jamswap.Builder
