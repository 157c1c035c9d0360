import Jamswap.Builder.NoLoss
import Jamswap.Builder.NoDuplicate

/-!
# An order ends once

Along moves that meet `SettlesOnce`, no order is given two terminal outcomes, no round id is
finalized twice, and an order that is over is neither queued nor owned by the round in flight
(`Custody.EndsOnce`). The key fact is that every placed order has one line of keys, each settled
before the next is made, so that at most one of them is still active.
-/

namespace Jamswap.Builder

open Library Engine

/-- Every key a container lists. -/
def View.carried (v : View) : List OKey :=
  v.queue ++ v.taken ++ v.retry ++
    (v.flight.toList ++ v.released.filter fun z ↦ z.sighted).flatMap Holding.keys

/-- The resting orders a round ends are distinct, not over yet, and nowhere else in the builder. -/
def View.BookClear (v : View) (book : List Pair) : Prop :=
  book.Nodup ∧ ∀ p ∈ book, p ∉ v.ended ∧ ∀ k ∈ v.carried, k.pair ≠ p

/-- The decisions after which nothing ends twice. -/
def SettlesOnce : Incident → Prop
  | .placed k v => k.pair ∉ v.ended
  | .submitted x v => x.rid ∉ v.finals ∧ ∀ z ∈ v.released, z.sighted = true → z.rid ≠ x.rid
  | .sighted z v => ∀ k ∈ z.keys, k ∉ v.receipts ∧ k.pair ∉ v.ended
  | .reverted z v => v.ClaimsOnly z
  | .finalized z book v => v.Alone z ∧ v.BookClear book
  | .settled _ book v => v.BookClear book
  | .passAborted dropped => ∀ z ∈ dropped, z.sighted = false
  | .drainAborted reposted lapsed => reposted = [] ∧ lapsed = []

theorem SettlesOnce.noDoubleQueue {i : Incident} (h : SettlesOnce i) : NoDoubleQueue i := by
  cases i with
  | reverted z v => exact h
  | drainAborted reposted lapsed => exact h.1
  | _ => trivial

variable {k k' : OKey} {x z : Holding} {book : List Pair} {b : Settlement}

namespace Custody

/-- The order may still end under this key. -/
inductive Active (c : Custody) (k : OKey) : Prop
  | queue (h : k ∈ c.queue)
  | held (h : k ∈ c.held)
  | due (h : k ∈ c.due) (hsealed : k.commit ≠ none)
  | flight (x : Holding) (hx : c.flight = some x) (h : k ∈ x.unclaimed)
  | released (z : Holding) (hz : z ∈ c.released) (hsighted : z.sighted = true)
      (hdone : z.ref ∉ c.done) (h : k ∈ z.keys)

/-- Of two keys of one order, one has been settled. -/
def OneLine (c : Custody) : Prop :=
  ∀ k ∈ c.seen, ∀ k' ∈ c.seen, k.pair = k'.pair → k ≠ k' → k ∈ c.receipts ∨ k' ∈ c.receipts

/-- An order ends once. -/
structure EndsOnce (c : Custody) : Prop where
  ended : c.ended.Nodup
  active : ∀ k, c.Active k → k ∉ c.receipts ∧ k.pair ∉ c.ended
  line : c.OneLine
  due : c.due.Nodup
  /-- an unsealed remainder is all that is left of its order -/
  bare : ∀ k ∈ c.due, k.commit = none →
    k.pair ∉ c.ended ∧ ∀ k' ∈ c.seen, k'.pair = k.pair → k' ∈ c.receipts

variable {c d : Custody}

theorem Active.known (h : c.Active k) : c.Known k := by
  cases h with
  | queue h => exact .queue h
  | held h => exact .held h
  | due h hsealed => exact .due h hsealed
  | flight x hx h => exact .flight x hx (mem_unclaimed.mp h).1
  | released z hz _ _ h => exact .released z hz h

/-- An order has one active key. -/
theorem EndsOnce.eq_of_pair (hs : c.Sound) (h : c.EndsOnce) (hk : c.Active k) (hk' : c.Active k')
    (hpair : k.pair = k'.pair) : k = k' := by
  by_contra hne
  rcases h.line k (hs.known_seen k hk.known) k' (hs.known_seen k' hk'.known) hpair hne with hr | hr
  · exact (h.active k hk).1 hr
  · exact (h.active k' hk').1 hr

/-- An unsealed remainder has no active sibling. -/
theorem EndsOnce.bare_alone (hs : c.Sound) (h : c.EndsOnce) (hk : k ∈ c.due)
    (hbare : k.commit = none) (hk' : c.Active k') : k'.pair ≠ k.pair := fun hpair ↦
  (h.active k' hk').1 ((h.bare k hk hbare).2 k' (hs.known_seen k' hk'.known) hpair)

/-- A move that only moves active keys around. -/
theorem EndsOnce.of_active (h : c.EndsOnce) (hended : d.ended = c.ended)
    (hreceipts : d.receipts = c.receipts) (hseen : d.seen = c.seen) (hdue : d.due ≤ c.due)
    (hactive : ∀ k, d.Active k → c.Active k ∨ (k ∉ c.receipts ∧ k.pair ∉ c.ended)) :
    d.EndsOnce where
  ended := hended ▸ h.ended
  active k hk := by
    rw [hreceipts, hended]
    exact (hactive k hk).elim (h.active k) id
  line := by
    unfold OneLine
    rw [hseen, hreceipts]
    exact h.line
  due := Multiset.nodup_of_le hdue h.due
  bare k hk hbare := by
    rw [hended, hseen, hreceipts]
    exact h.bare k (Multiset.mem_of_le hdue hk) hbare

/-- Ending an order that is active under a key which then is not active any more. -/
theorem EndsOnce.of_end (hs : c.Sound) (h : c.EndsOnce) (hk : c.Active k)
    (hended : d.ended = k.pair :: c.ended) (hreceipts : d.receipts = c.receipts)
    (hseen : d.seen = c.seen) (hdue : d.due ≤ c.due)
    (hactive : ∀ k', d.Active k' → c.Active k' ∧ k' ≠ k) : d.EndsOnce where
  ended := by
    rw [hended]
    exact List.nodup_cons.mpr ⟨(h.active k hk).2, h.ended⟩
  active k' hk' := by
    obtain ⟨hk', hne⟩ := hactive k' hk'
    rw [hreceipts, hended]
    refine ⟨(h.active k' hk').1, fun hmem ↦ ?_⟩
    rcases List.mem_cons.mp hmem with hpair | hmem
    · exact hne (h.eq_of_pair hs hk' hk hpair)
    · exact (h.active k' hk').2 hmem
  line := by
    unfold OneLine
    rw [hseen, hreceipts]
    exact h.line
  due := Multiset.nodup_of_le hdue h.due
  bare k' hk' hbare := by
    have hmem : k' ∈ c.due := Multiset.mem_of_le hdue hk'
    rw [hended, hseen, hreceipts]
    refine ⟨fun hmem' ↦ ?_, (h.bare k' hmem hbare).2⟩
    rcases List.mem_cons.mp hmem' with hpair | hmem'
    · exact h.bare_alone hs hmem hbare hk hpair.symm
    · exact (h.bare k' hmem hbare).1 hmem'

/-! ### Round ids and the build under way -/

/-- Every tracked round has an id of its own that is not finalized yet, and a build knows where each
order it took has gone. -/
structure Tracked (c : Custody) : Prop where
  finals : c.finals.Nodup
  rids : (c.released.map Holding.rid).Nodup
  flight : ∀ x, c.flight = some x → x.rid ∉ c.finals ∧ ∀ z ∈ c.released, z.rid ≠ x.rid
  released : ∀ z ∈ c.released, z.rid ∈ c.finals ↔ z.ref ∈ c.done
  /-- what the round in flight marks as claimed is with a finalized round or a sighted one -/
  claims : ∀ x, c.flight = some x → ∀ k ∈ x.keys, ∀ r, x.claimed k = some r →
    r ∈ c.finals ∨ ∃ y ∈ c.released, y.sighted = true ∧ y.rid = r ∧ k ∈ y.keys
  taken : ∀ k ∈ c.taken, k ∈ c.held ∨ k ∈ c.spent ∨ k ∈ c.queue ∨
    ∃ z ∈ c.released, z.sighted = true ∧ z.ref ∈ c.fresh ∧ k ∈ z.keys
  fresh : c.taken ≠ [] → ∀ r ∈ c.done, r ∉ c.fresh

/-- Nothing is in flight while a build holds orders, and the other way round. -/
theorem Sound.taken_eq_nil (hs : c.Sound) (hflight : c.flight = some x) : c.taken = [] := by
  by_contra htaken
  simp [hs.build_alone htaken] at hflight

theorem map_rid {f : Holding → Holding} (hf : ∀ x, (f x).SameRound x) (zs : List Holding) :
    (zs.map f).map Holding.rid = zs.map Holding.rid := by
  rw [List.map_map]
  exact List.map_congr_left fun x _ ↦ (hf x).rid

section

variable (h : c.Tracked)

include h

theorem Tracked.sight (hs : c.Sound) (hz : z ∈ c.released) (hsighted : z.sighted = false) :
    (c.sight z).Tracked := by
  obtain ⟨z', hz', hsighted', hself⟩ := exists_sighted_sight hz (Or.inr rfl)
  refine {
    finals := h.finals
    rids := by
      rw [Custody.sight, map_rid (z.sameRound_sight · true)]
      exact h.rids
    flight := fun y hy ↦ ?_
    released := fun y hy ↦ ?_
    claims := fun y hy k hk r hclaim ↦ ?_
    taken := fun k hk ↦ ?_
    fresh := fun htaken r hr ↦ ?_ }
  · obtain ⟨x, hx, rfl⟩ := Option.map_eq_some_iff.mp hy
    rw [(z.sameRound_note x).rid]
    refine ⟨(h.flight x hx).1, fun w hw ↦ ?_⟩
    obtain ⟨v, hv, rfl⟩ := List.mem_map.mp hw
    rw [(z.sameRound_sight v true).rid]
    exact (h.flight x hx).2 v hv
  · obtain ⟨v, hv, rfl⟩ := List.mem_map.mp hy
    rw [(z.sameRound_sight v true).rid, (z.sameRound_sight v true).ref]
    exact h.released v hv
  · obtain ⟨x, hx, rfl⟩ := Option.map_eq_some_iff.mp hy
    rw [(z.sameRound_note x).keys] at hk
    rcases claimed_note id (fun _ ↦ rfl) hclaim with ⟨-, hkz, rfl⟩ | hclaim
    · exact Or.inr ⟨z', hz', hsighted', hself.rid, hself.keys ▸ hkz⟩
    · rcases h.claims x hx k hk r hclaim with hr | ⟨w, hw, hw', rfl, hkw⟩
      · exact Or.inl hr
      · obtain ⟨w', hmem, hs', hsame⟩ := exists_sighted_sight hw (Or.inl hw')
        exact Or.inr ⟨w', hmem, hs', hsame.rid, hsame.keys ▸ hkw⟩
  · by_cases hkz : k ∈ z.keys
    · exact Or.inr (Or.inr (Or.inr
        ⟨z', hz', hsighted', hself.ref ▸ List.mem_cons_self, hself.keys ▸ hkz⟩))
    · rcases h.taken k hk with hh | hspent | hq | ⟨w, hw, hw', hfresh, hkw⟩
      · exact Or.inl (Multiset.mem_filter.mpr ⟨hh, hkz⟩)
      · exact Or.inr (Or.inl hspent)
      · exact Or.inr (Or.inr (Or.inl (List.mem_filter.mpr ⟨hq, by simpa using hkz⟩)))
      · obtain ⟨w', hmem, hs', hsame⟩ := exists_sighted_sight hw (Or.inl hw')
        exact Or.inr (Or.inr (Or.inr
          ⟨w', hmem, hs', hsame.ref ▸ List.mem_cons_of_mem _ hfresh, hsame.keys ▸ hkw⟩))
  · intro hmem
    rcases List.mem_cons.mp hmem with rfl | hmem
    · -- a round finalized in this pass was sighted before
      obtain ⟨w, hw, href, hw'⟩ := hs.done_sighted _ hr
      rw [hs.eq_of_ref hw hz href, hsighted] at hw'
      cases hw'
    · exact h.fresh htaken r hr hmem

theorem Tracked.unsight (hs : c.Sound) (hturn : c.InTurn z) : (c.unsight z).Tracked := by
  refine {
    finals := h.finals
    rids := by
      rw [Custody.unsight, map_rid (z.sameRound_unsight · false)]
      exact h.rids
    flight := fun y hy ↦ ?_
    released := fun y hy ↦ ?_
    claims := fun y hy k hk r hclaim ↦ ?_
    taken := fun k hk ↦ ?_
    fresh := h.fresh }
  · obtain ⟨x, hx, rfl⟩ := Option.map_eq_some_iff.mp hy
    rw [(z.sameRound_drop x).rid]
    refine ⟨(h.flight x hx).1, fun w hw ↦ ?_⟩
    obtain ⟨v, hv, rfl⟩ := List.mem_map.mp hw
    rw [(z.sameRound_unsight v false).rid]
    exact (h.flight x hx).2 v hv
  · obtain ⟨v, hv, rfl⟩ := List.mem_map.mp hy
    rw [(z.sameRound_unsight v false).rid, (z.sameRound_unsight v false).ref]
    exact h.released v hv
  · obtain ⟨x, hx, rfl⟩ := Option.map_eq_some_iff.mp hy
    rw [(z.sameRound_drop x).keys] at hk
    obtain ⟨hclaim, hother⟩ := claimed_drop id (fun _ ↦ rfl) hclaim
    have hrid : r ≠ z.rid := hother.resolve_left fun href ↦
      (hs.flight_ref x hx).2 z hturn.mem href.symm
    rcases h.claims x hx k hk r hclaim with hr | ⟨w, hw, hw', rfl, hkw⟩
    · exact Or.inl hr
    · have hne : w.ref ≠ z.ref := fun href ↦
        hrid (congrArg Holding.rid (hs.eq_of_ref hw hturn.mem href))
      obtain ⟨w', hmem, hs', hsame⟩ := exists_sighted_unsight hw hw' hne
      exact Or.inr ⟨w', hmem, hs', hsame.rid, hsame.keys ▸ hkw⟩
  · rcases h.taken k hk with hh | hspent | hq | ⟨w, hw, hw', hfresh, hkw⟩
    · exact Or.inl hh
    · exact Or.inr (Or.inl hspent)
    · exact Or.inr (Or.inr (Or.inl (List.mem_append_right _ hq)))
    · -- a round sighted since the build began has not had its turn yet
      have hne : w.ref ≠ z.ref := fun href ↦ by
        rcases hturn.settled with htaken | hnot
        · exact absurd hk (by simp [Custody.unsight, htaken])
        · exact hnot (href ▸ hfresh)
      obtain ⟨w', hmem, hs', hsame⟩ := exists_sighted_unsight hw hw' hne
      exact Or.inr (Or.inr (Or.inr ⟨w', hmem, hs', hsame.ref ▸ hfresh, hsame.keys ▸ hkw⟩))

/-- Dropping released rounds that are unsighted, or finalized in the pass that is over. -/
theorem Tracked.drop {released : List Holding} {done : List ℕ} (hsub : released.Sublist c.released)
    (hdone : done ⊆ c.done)
    (hdrop : ∀ z ∈ c.released, z ∈ released ∨ z.sighted = false ∨ z.ref ∈ c.done)
    (hkeep : ∀ z ∈ released, z.ref ∈ done ↔ z.ref ∈ c.done) :
    Tracked { c with released, done } where
  finals := h.finals
  rids := h.rids.sublist (hsub.map _)
  flight x hx := ⟨(h.flight x hx).1, fun z hz ↦ (h.flight x hx).2 z (hsub.subset hz)⟩
  released z hz := (h.released z (hsub.subset hz)).trans (hkeep z hz).symm
  claims x hx k hk r hclaim := by
    rcases h.claims x hx k hk r hclaim with hr | ⟨y, hy, hy', hrest⟩
    · exact Or.inl hr
    · rcases hdrop y hy with hmem | hun | hfin
      · exact Or.inr ⟨y, hmem, hy', hrest⟩
      · simp [hy'] at hun
      · exact Or.inl (hrest.1 ▸ (h.released y hy).mpr hfin)
  taken k hk := by
    rcases h.taken k hk with hh | hspent | hq | ⟨w, hw, hw', hfresh, hkw⟩
    · exact Or.inl hh
    · exact Or.inr (Or.inl hspent)
    · exact Or.inr (Or.inr (Or.inl hq))
    · rcases hdrop w hw with hmem | hun | hfin
      · exact Or.inr (Or.inr (Or.inr ⟨w, hmem, hw', hfresh, hkw⟩))
      · simp [hw'] at hun
      · exact absurd hfresh (h.fresh (List.ne_nil_of_mem hk) _ hfin)
  fresh htaken r hr := h.fresh htaken r (hdone hr)

/-- A move that leaves the records alone. -/
theorem Tracked.of_taken (hflight : d.flight = c.flight) (hreleased : d.released = c.released)
    (hfinals : d.finals = c.finals) (hdone : d.done = c.done)
    (hfresh : d.taken ≠ [] → c.taken ≠ [] ∧ d.fresh = c.fresh ∨ d.fresh = [])
    (htaken : ∀ k ∈ d.taken, k ∈ d.held ∨ k ∈ d.spent ∨ k ∈ d.queue ∨
      ∃ z ∈ c.released, z.sighted = true ∧ z.ref ∈ d.fresh ∧ k ∈ z.keys) : d.Tracked where
  finals := hfinals ▸ h.finals
  rids := hreleased ▸ h.rids
  flight x hx := by
    rw [hfinals, hreleased]
    exact h.flight x (hflight ▸ hx)
  released z hz := by
    rw [hfinals, hdone]
    exact h.released z (hreleased ▸ hz)
  claims x hx k hk r hclaim := by
    rw [hfinals, hreleased]
    exact h.claims x (hflight ▸ hx) k hk r hclaim
  taken k hk := by
    rw [hreleased]
    exact htaken k hk
  fresh hne r hr := by
    rcases hfresh hne with ⟨hne', heq⟩ | heq
    · rw [heq]
      exact h.fresh hne' r (hdone ▸ hr)
    · simp [heq]

theorem Tracked.register (hclaimed : ∀ k, x.claimed k = none) (hfinals : x.rid ∉ c.finals)
    (hrid : ∀ z ∈ c.released, z.sighted = true → z.rid ≠ x.rid) :
    (c.register x).Tracked where
  finals := h.finals
  rids := h.rids.sublist (List.filter_sublist.map _)
  flight y hy := by
    cases Option.some.inj hy
    refine ⟨hfinals, fun z hz ↦ ?_⟩
    obtain ⟨hz, hz'⟩ := List.mem_filter.mp hz
    exact (of_decide_eq_true hz').elim id (hrid z hz)
  released z hz := h.released z (List.mem_of_mem_filter hz)
  claims y hy k hk r hclaim := by
    cases Option.some.inj hy
    simp [hclaimed k] at hclaim
  taken _ hk := by cases hk
  fresh hne := absurd rfl hne

theorem Tracked.release (hs : c.Sound) (hflight : c.flight = some x) :
    (c.release x).Tracked where
  finals := h.finals
  rids := by
    simp only [Custody.release, List.map_append, List.map_cons, List.map_nil]
    refine List.nodup_append'.mpr ⟨h.rids, List.nodup_singleton _, ?_⟩
    simp only [List.disjoint_singleton, List.mem_map, not_exists, not_and]
    exact (h.flight x hflight).2
  flight y hy := by cases hy
  released z hz := by
    rcases List.mem_append.mp hz with hz | hz
    · exact h.released z hz
    · cases List.mem_singleton.mp hz
      refine iff_of_false (h.flight x hflight).1 fun hdone ↦ ?_
      obtain ⟨w, hw, href, -⟩ := hs.done_sighted _ hdone
      exact (hs.refs_lt w hw).ne href
  claims y hy := by cases hy
  taken k hk := absurd hk (by simp [Custody.release, hs.taken_eq_nil hflight])
  fresh hne := absurd (hs.taken_eq_nil hflight) hne

theorem Tracked.settleReleased (hs : c.Sound) {z : Holding} (b : Settlement) (hturn : c.InTurn z) :
    Tracked { c.settle z b with done := z.ref :: c.done } where
  finals := List.nodup_cons.mpr
    ⟨fun hr ↦ hturn.pending ((h.released z hturn.mem).mp hr), h.finals⟩
  rids := h.rids
  flight x hx := by
    refine ⟨fun hr ↦ ?_, (h.flight x hx).2⟩
    rcases List.mem_cons.mp hr with hr | hr
    · exact (h.flight x hx).2 z hturn.mem hr.symm
    · exact (h.flight x hx).1 hr
  released y hy := by
    have hrid : y.rid = z.rid ↔ y.ref = z.ref := by
      constructor
      · intro heq
        rw [List.inj_on_of_nodup_map h.rids hy hturn.mem heq]
      · intro heq
        rw [hs.eq_of_ref hy hturn.mem heq]
    simp only [Custody.settle, List.mem_cons, hrid, h.released y hy]
  claims x hx k hk r hclaim := (h.claims x hx k hk r hclaim).imp (List.mem_cons_of_mem _) id
  taken k hk := by
    rcases h.taken k hk with hh | hspent | hq | hz
    · exact Or.inl hh
    · exact Or.inr (Or.inl hspent)
    · exact Or.inr (Or.inr (Or.inl (List.mem_append_left _ hq)))
    · exact Or.inr (Or.inr (Or.inr hz))
  fresh hne r hr := by
    rcases List.mem_cons.mp hr with rfl | hr
    · exact hturn.settled.resolve_left hne
    · exact h.fresh hne r hr

theorem Tracked.settleFlight (hs : c.Sound) (b : Settlement) (hflight : c.flight = some x) :
    Tracked { c.settle x b with flight := none } where
  finals := List.nodup_cons.mpr ⟨(h.flight x hflight).1, h.finals⟩
  rids := h.rids
  flight y hy := by cases hy
  released z hz := by
    simp only [Custody.settle, List.mem_cons, (h.flight x hflight).2 z hz, false_or]
    exact h.released z hz
  claims y hy := by cases hy
  taken k hk := absurd hk (by simp [Custody.settle, hs.taken_eq_nil hflight])
  fresh hne := absurd (hs.taken_eq_nil hflight) hne

theorem Tracked.move (hs : c.Sound) (hmove : Move SettlesOnce c d) : d.Tracked := by
  have htaken := h.taken
  cases hmove with
  | place | cancel | reseal | repost | lapse =>
    -- no build is under way
    have hnone : c.taken = [] := by assumption
    exact h.of_taken rfl rfl rfl rfl (fun hne ↦ absurd hnone hne) fun k hk ↦ by
      simp [hnone] at hk
  | take queue taken held hflight hheld hnone hqueue hsub hle hall hcover hapart =>
    exact h.of_taken rfl rfl rfl rfl (fun _ ↦ Or.inr rfl) fun k hk ↦ Or.inl (hall k hk)
  | endHeld k hk =>
    refine h.of_taken rfl rfl rfl rfl (fun hne ↦ Or.inl ⟨hne, rfl⟩) fun k' hk' ↦ ?_
    by_cases heq : k' = k
    · exact Or.inr (Or.inl (heq ▸ List.mem_cons_self))
    · have := htaken k' hk'
      have := Multiset.mem_erase_of_ne (s := c.held) heq
      grind
  | giveBack back held hsplit =>
    refine h.of_taken rfl rfl rfl rfl (fun hne ↦ Or.inl ⟨hne, rfl⟩) fun k hk ↦ ?_
    have := htaken k hk
    rw [hsplit, Multiset.mem_add, Multiset.mem_coe] at this
    simp only [Custody.giveBack, List.mem_append]
    tauto
  | requeue | finish =>
    exact h.of_taken rfl rfl rfl rfl (fun hne ↦ absurd rfl hne) fun _ hk ↦ (by cases hk)
  | register x hflight hkeys hclaimed href hG => exact h.register hclaimed hG.1 hG.2
  | skip | closeDrain | abortDrain =>
    exact h.of_taken rfl rfl rfl rfl (fun hne ↦ Or.inl ⟨hne, rfl⟩) htaken
  | release x hflight => exact h.release hs hflight
  | forget released hsub hdrop =>
    exact h.drop hsub (fun _ h ↦ h) (fun z hz ↦ (hdrop z hz).imp id Or.inl) fun _ _ ↦ Iff.rfl
  | sight z hz hsighted hG => exact h.sight hs hz hsighted
  | unsight z hturn hG => exact h.unsight hs hturn
  | settleReleased z book b hturn hG hb => exact h.settleReleased hs b hturn
  | settleFlight x book b hflight hG hb => exact h.settleFlight hs b hflight
  | closePass released hsub hdrop hkeep =>
    exact h.drop hsub (List.nil_subset _) hdrop fun z hz ↦
      iff_of_false List.not_mem_nil (hkeep z hz)
  | abortPass dropped hdone hG =>
    have hnone : ∀ r, r ∉ c.done := fun r hr ↦ by
      obtain ⟨z, hz, hz', -⟩ := hdone r hr
      simp [hG z hz] at hz'
    exact h.drop (List.Sublist.refl _) (List.nil_subset _) (fun z hz ↦ Or.inl hz) fun z _ ↦
      iff_of_false List.not_mem_nil (hnone z.ref)

end

/-! ### Settling once -/

theorem Active.carried (hs : c.Sound) (hdue : c.due = c.retry) (h : c.Active k) :
    k ∈ c.carried := by
  unfold View.carried
  simp only [List.mem_append, List.mem_flatMap, List.mem_filter, Option.mem_toList]
  cases h with
  | queue h => exact Or.inl (Or.inl (Or.inl h))
  | held h => exact Or.inl (Or.inl (Or.inr (hs.held_taken k h)))
  | due h _ => exact Or.inl (Or.inr (by simpa [hdue] using h))
  | flight x hx h => exact Or.inr ⟨x, Or.inl hx, (mem_unclaimed.mp h).1⟩
  | released z hz hsighted _ h => exact Or.inr ⟨z, Or.inr ⟨hz, hsighted⟩, h⟩

/-- What a settlement hands out, for a round whose own orders are all active: distinct orders end,
none of them over before, and each new key takes over from one the round settles. -/
structure Handout (c : Custody) (x : Holding) (b : Settlement) : Prop where
  ended : (b.ended ++ c.ended).Nodup
  /-- what ends is on the book or was the round's own -/
  ends : ∀ k, c.Active k ∨ k ∈ c.due → k ∉ x.unclaimed → k.pair ∉ b.ended
  successors : ((b.queued ++ b.retried).map OKey.pair).Nodup
  /-- a new key's order had an active key among the round's own -/
  successor : ∀ k ∈ b.queued ++ b.retried, k.pair ∉ b.ended ∧
    ∃ k₀ ∈ x.unclaimed, k₀.pair = k.pair

theorem MaySettle.handout (hs : c.Sound) (h : c.EndsOnce) (hb : c.MaySettle x book b)
    (hclear : c.BookClear book) (hown : ∀ k ∈ x.unclaimed, c.Active k) (hnodup : x.keys.Nodup) :
    c.Handout x b := by
  obtain ⟨finished, left, carried, hfates, hended, -, hcarried⟩ := hb.accounts
  have hpairs : (x.unclaimed.map OKey.pair).Nodup :=
    List.Nodup.map_on (fun k hk k' hk' ↦ h.eq_of_pair hs (hown k hk) (hown k' hk'))
      (hnodup.filter _)
  have hsplit := (hfates.map OKey.pair).nodup_iff.mpr hpairs
  rw [List.map_append, List.map_append, List.nodup_append', List.nodup_append'] at hsplit
  obtain ⟨⟨hover, -, -⟩, hcarry, hapart⟩ := hsplit
  have hmem : ∀ k ∈ finished ++ left ++ carried, k ∈ x.unclaimed := fun k hk ↦ hfates.subset hk
  have hbook : ∀ k, c.Active k ∨ k ∈ c.due → k.pair ∉ book := fun k hk hp ↦ by
    refine (hclear.2 _ hp).2 k ?_ rfl
    rcases hk with hk | hk
    · exact hk.carried hs hb.due
    · rw [hb.due] at hk
      exact List.mem_append_left _ (List.mem_append_right _ hk)
  refine ⟨?_, fun k hk hnot hp ↦ ?_, hcarried.nodup_iff.mpr hcarry, fun k hk ↦ ?_⟩
  · refine List.nodup_append'.mpr ⟨hended.nodup_iff.mpr ?_, h.ended, fun p hp hp' ↦ ?_⟩
    · refine List.nodup_append'.mpr ⟨hover, hclear.1, fun p hp hp' ↦ ?_⟩
      obtain ⟨k, hk, rfl⟩ := List.mem_map.mp hp
      exact hbook k (Or.inl (hown k (hmem k (by simp [hk])))) hp'
    · rcases List.mem_append.mp (hended.subset hp) with hp | hp
      · obtain ⟨k, hk, rfl⟩ := List.mem_map.mp hp
        exact (h.active k (hown k (hmem k (by simp [hk])))).2 hp'
      · exact (hclear.2 p hp).1 hp'
  · rcases List.mem_append.mp (hended.subset hp) with hp | hp
    · obtain ⟨k', hk', hpair⟩ := List.mem_map.mp hp
      have hk'' : k' ∈ x.unclaimed := hmem k' (by simp [hk'])
      by_cases hact : c.Active k
      · exact hnot (h.eq_of_pair hs hact (hown k' hk'') hpair.symm ▸ hk'')
      · -- an unsealed remainder is all that is left of its order
        have hdue : k ∈ c.due := hk.resolve_left hact
        have hbare : k.commit = none := by
          by_contra hsealed
          exact hact (.due hdue hsealed)
        exact h.bare_alone hs hdue hbare (hown k' hk'') hpair
    · exact hbook k hk hp
  · obtain ⟨k₀, hk₀, hpair⟩ := List.mem_map.mp (hcarried.subset (List.mem_map_of_mem hk))
    have hk₀' : k₀ ∈ x.unclaimed := hmem k₀ (by simp [hk₀])
    refine ⟨fun hp ↦ ?_, k₀, hk₀', hpair⟩
    rcases List.mem_append.mp (hended.subset hp) with hp | hp
    · refine hapart (List.mem_append_left _ hp) ?_
      exact hpair ▸ List.mem_map_of_mem hk₀
    · exact hbook k₀ (Or.inl (hown k₀ hk₀')) (hpair ▸ hp)

/-- Handing out a settlement keeps every order on one line that ends once, as long as the round's
own orders are active nowhere else. -/
theorem EndsOnce.settle (hs : c.Sound) (h : c.EndsOnce) (hb : c.MaySettle x book b)
    (hclear : c.BookClear book) (hknown : ∀ k ∈ x.keys, c.Known k)
    (hown : ∀ k ∈ x.unclaimed, c.Active k) (hnodup : x.keys.Nodup)
    (hended : d.ended = b.ended ++ c.ended) (hreceipts : d.receipts = x.unclaimed ++ c.receipts)
    (hseen : d.seen = b.minted ++ c.seen) (hdue : d.due = c.due + b.retried)
    (hactive : ∀ k, d.Active k → k ∈ b.minted ∨ (c.Active k ∧ k ∉ x.unclaimed)) : d.EndsOnce := by
  have hhand := hb.handout hs h hclear hown hnodup
  have hminted : ∀ k ∈ b.minted, k ∈ b.queued ++ b.retried ∧ k.commit ≠ none := fun k hk ↦
    ⟨List.mem_append.mpr (mem_minted.mp hk).1, (mem_minted.mp hk).2⟩
  have hsame : ∀ k ∈ b.queued ++ b.retried, ∀ k' ∈ b.queued ++ b.retried, k.pair = k'.pair →
      k = k' := fun k hk k' hk' ↦ List.inj_on_of_nodup_map hhand.successors hk hk'
  -- once the round has settled, every older key of a carried order is settled
  have holder : ∀ k ∈ b.queued ++ b.retried, ∀ k' ∈ c.seen, k'.pair = k.pair →
      k' ∈ d.receipts := by
    intro k hk k' hk' hpair
    obtain ⟨-, k₀, hk₀, hpair₀⟩ := hhand.successor k hk
    rw [hreceipts]
    by_cases heq : k' = k₀
    · exact List.mem_append_left _ (heq ▸ hk₀)
    · have hk₀' := hs.known_seen k₀ (hown k₀ hk₀).known
      rcases h.line k' hk' k₀ hk₀' (hpair.trans hpair₀.symm) heq with hr | hr
      · exact List.mem_append_right _ hr
      · exact absurd hr (h.active k₀ (hown k₀ hk₀)).1
  have hover : ∀ k ∈ b.queued ++ b.retried, k.pair ∉ d.ended := by
    intro k hk hp
    obtain ⟨hnot, k₀, hk₀, hpair₀⟩ := hhand.successor k hk
    rw [hended] at hp
    rcases List.mem_append.mp hp with hp | hp
    · exact hnot hp
    · exact (h.active k₀ (hown k₀ hk₀)).2 (hpair₀ ▸ hp)
  refine ⟨hended ▸ hhand.ended, fun k hk ↦ ?_, ?_, ?_, fun k hk hbare ↦ ?_⟩
  · rcases hactive k hk with hk | ⟨hk, hnot⟩
    · refine ⟨fun hr ↦ hb.minted k hk ?_, hover k (hminted k hk).1⟩
      rw [hreceipts] at hr
      rcases List.mem_append.mp hr with hr | hr
      · exact hs.known_seen k (hknown k (mem_unclaimed.mp hr).1)
      · exact hs.known_seen k (.receipts hr)
    · rw [hreceipts, hended]
      refine ⟨fun hr ↦ ?_, fun hp ↦ ?_⟩
      · exact (List.mem_append.mp hr).elim hnot (h.active k hk).1
      · exact (List.mem_append.mp hp).elim (hhand.ends k (Or.inl hk) hnot) (h.active k hk).2
  · intro k hk k' hk' hpair hne
    rw [hseen] at hk hk'
    rcases List.mem_append.mp hk with hk | hk <;> rcases List.mem_append.mp hk' with hk' | hk'
    · exact absurd (hsame k (hminted k hk).1 k' (hminted k' hk').1 hpair) hne
    · exact Or.inr (holder k (hminted k hk).1 k' hk' hpair.symm)
    · exact Or.inl (holder k' (hminted k' hk').1 k hk hpair)
    · rw [hreceipts]
      exact (h.line k hk k' hk' hpair hne).imp (List.mem_append_right _) (List.mem_append_right _)
  · rw [hdue, Multiset.nodup_add]
    have hnodup' : b.retried.Nodup :=
      (List.Nodup.of_map _ hhand.successors).of_append_right
    refine ⟨h.due, Multiset.coe_nodup.mpr hnodup', Multiset.disjoint_left.mpr fun {k} hk hk' ↦ ?_⟩
    have hk'' : k ∈ b.queued ++ b.retried := List.mem_append_right _ hk'
    by_cases hbare : k.commit = none
    · obtain ⟨-, k₀, hk₀, hpair₀⟩ := hhand.successor k hk''
      exact h.bare_alone hs hk hbare (hown k₀ hk₀) hpair₀
    · exact hb.minted k (mem_minted.mpr ⟨Or.inr hk', hbare⟩) (hs.known_seen k (.due hk hbare))
  · rw [hdue, Multiset.mem_add, Multiset.mem_coe] at hk
    rcases hk with hk | hk
    · -- an older unsealed remainder: this round neither ends its order nor makes it a new key
      obtain ⟨hnot, hall⟩ := h.bare k hk hbare
      rw [hended]
      refine ⟨fun hp ↦ ?_, fun k' hk' hpair ↦ ?_⟩
      · refine (List.mem_append.mp hp).elim (hhand.ends k (Or.inr hk) fun hmem ↦ ?_) hnot
        exact h.bare_alone hs hk hbare (hown k hmem) rfl
      · rw [hseen] at hk'
        rcases List.mem_append.mp hk' with hk' | hk'
        · obtain ⟨-, k₀, hk₀, hpair₀⟩ := hhand.successor k' (hminted k' hk').1
          exact absurd (hpair₀.trans hpair) (h.bare_alone hs hk hbare (hown k₀ hk₀))
        · rw [hreceipts]
          exact List.mem_append_right _ (hall k' hk' hpair)
    · have hk'' : k ∈ b.queued ++ b.retried := List.mem_append_right _ hk
      refine ⟨hover k hk'', fun k' hk' hpair ↦ ?_⟩
      rw [hseen] at hk'
      rcases List.mem_append.mp hk' with hk' | hk'
      · obtain ⟨hmem, hsealed⟩ := hminted k' hk'
        exact absurd (hsame k' hmem k hk'' hpair ▸ hbare) hsealed
      · exact holder k hk'' k' hk' hpair

/-- Who may end an order goes on being so when nothing but the queue and the build's hands gets
anything new. -/
theorem Active.mono (h : d.Active k) (hqueue : k ∈ d.queue → c.Active k)
    (hheld : k ∈ d.held → c.Active k) (hdue : ∀ k ∈ d.due, k ∈ c.due)
    (hflight : ∀ x, d.flight = some x → c.flight = some x) (hreleased : d.released ⊆ c.released)
    (hdone : ∀ z ∈ d.released, z.ref ∈ c.done → z.ref ∈ d.done) : c.Active k := by
  cases h with
  | queue h => exact hqueue h
  | held h => exact hheld h
  | due h hsealed => exact .due (hdue k h) hsealed
  | flight x hx h => exact .flight x (hflight x hx) h
  | released z hz hsighted hnot h =>
    exact .released z (hreleased hz) hsighted (fun hd ↦ hnot (hdone z hz hd)) h

section

variable (h : c.EndsOnce) (hs : c.Sound)

include h hs

theorem EndsOnce.sight (hfresh : ∀ k ∈ z.keys, k ∉ c.receipts ∧ k.pair ∉ c.ended)
    (hz : z ∈ c.released) : (c.sight z).EndsOnce := by
  refine h.of_active rfl rfl rfl le_rfl fun k hk ↦ ?_
  by_cases hkz : k ∈ z.keys
  · exact Or.inr (hfresh k hkz)
  left
  cases hk with
  | queue hq => exact .queue (List.mem_of_mem_filter hq)
  | held hh => exact .held (Multiset.mem_of_mem_filter hh)
  | due hd hsealed => exact .due hd hsealed
  | flight y hy hk =>
    obtain ⟨x, hx, rfl⟩ := Option.map_eq_some_iff.mp hy
    obtain ⟨hk, hclaim⟩ := mem_unclaimed.mp hk
    have hne : x.ref ≠ z.ref := Ne.symm ((hs.flight_ref x hx).2 z hz)
    rw [split_of_ne hne] at hk hclaim
    refine .flight x hx (mem_unclaimed.mpr ⟨hk, ?_⟩)
    simpa [Holding.noteClaim, hkz] using hclaim
  | released y hy hsighted hdone hk =>
    obtain ⟨x, hx, rfl⟩ := List.mem_map.mp hy
    rw [(z.sameRound_sight x true).keys] at hk
    rw [(z.sameRound_sight x true).ref] at hdone
    have hne : x.ref ≠ z.ref := fun href ↦ hkz (hs.eq_of_ref hx hz href ▸ hk)
    rw [split_of_ne hne] at hsighted
    exact .released x hx hsighted hdone hk

theorem EndsOnce.unsight (ht : c.Tracked) (hturn : c.InTurn z) :
    (c.unsight z).EndsOnce := by
  refine h.of_active rfl rfl rfl le_rfl fun k hk ↦ Or.inl ?_
  have hown : k ∈ z.keys → c.Active k := fun hkz ↦
    .released z hturn.mem hturn.sighted hturn.pending hkz
  cases hk with
  | queue hq =>
    rcases List.mem_append.mp hq with hq | hq
    · exact hown (List.mem_of_mem_filter hq)
    · exact .queue hq
  | held hh => exact .held hh
  | due hd hsealed => exact .due hd hsealed
  | flight y hy hk =>
    obtain ⟨x, hx, rfl⟩ := Option.map_eq_some_iff.mp hy
    obtain ⟨hk, hclaim⟩ := mem_unclaimed.mp hk
    have hne : x.ref ≠ z.ref := Ne.symm ((hs.flight_ref x hx).2 z hturn.mem)
    rw [split_of_ne hne] at hk hclaim
    simp only [Holding.dropClaim] at hclaim
    split at hclaim
    · next hrid =>
      -- the claim that is dropped was this round's, which is not finalized
      rcases ht.claims x hx k hk _ hrid with hfin | ⟨y, hy, -, hyrid, hky⟩
      · exact absurd ((ht.released z hturn.mem).mp hfin) hturn.pending
      · exact hown (List.inj_on_of_nodup_map ht.rids hy hturn.mem hyrid ▸ hky)
    · exact .flight x hx (mem_unclaimed.mpr ⟨hk, hclaim⟩)
  | released y hy hsighted hdone hk =>
    obtain ⟨x, hx, rfl⟩ := List.mem_map.mp hy
    rw [(z.sameRound_unsight x false).keys] at hk
    rw [(z.sameRound_unsight x false).ref] at hdone
    by_cases hne : x.ref = z.ref
    · rw [split_of_eq hne] at hsighted
      cases hsighted
    · rw [split_of_ne hne] at hsighted
      exact .released x hx hsighted hdone hk

theorem EndsOnce.settleReleased (hu : c.Unique) (hturn : c.InTurn z)
    (halone : c.Alone z) (hclear : c.BookClear book) (hb : c.MaySettle z book b) :
    EndsOnce { c.settle z b with done := z.ref :: c.done } := by
  have hown : ∀ k ∈ z.keys, c.Active k := fun k hk ↦
    .released z hturn.mem hturn.sighted hturn.pending hk
  have hmem : ∀ k ∈ z.unclaimed, k ∈ z.keys := fun k hk ↦ (mem_unclaimed.mp hk).1
  refine h.settle hs hb hclear (fun k hk ↦ (hown k hk).known) (fun k hk ↦ hown k (hmem k hk))
    (hu.released z hturn.mem) rfl rfl rfl rfl fun k hk ↦ ?_
  have hapart := hu.sighted z hturn.mem hturn.sighted k
  cases hk with
  | queue hq =>
    rcases List.mem_append.mp hq with hq | hq
    · exact Or.inr ⟨.queue hq, fun hk ↦ (hapart (hmem k hk)).1 hq⟩
    · exact Or.inl (mem_minted.mpr ⟨Or.inl hq, hb.sealed k hq⟩)
  | held hh => exact Or.inr ⟨.held hh, fun hk ↦ (hapart (hmem k hk)).2 hh⟩
  | due hd hsealed =>
    rcases Multiset.mem_add.mp hd with hd | hd
    · refine Or.inr ⟨.due hd hsealed, fun hk ↦ ?_⟩
      exact hu.owed k (mem_owed.mpr ⟨Or.inl hd, hsealed⟩) (.released z hturn.mem (hmem k hk))
    · exact Or.inl (mem_minted.mpr ⟨Or.inr hd, hsealed⟩)
  | flight x hx hk =>
    refine Or.inr ⟨.flight x hx hk, fun hkz ↦ ?_⟩
    obtain ⟨hkx, hnone⟩ := mem_unclaimed.mp hk
    exact hu.claimed x hx z hturn.mem hturn.sighted k (hmem k hkz) hkx hnone
  | released y hy hsighted hdone hk =>
    have hne : y.ref ≠ z.ref := fun href ↦ hdone (href ▸ List.mem_cons_self)
    refine Or.inr ⟨.released y hy hsighted (fun hd ↦ hdone (List.mem_cons_of_mem _ hd)) hk, ?_⟩
    exact fun hkz ↦ halone y hy hne hsighted ⟨k, hmem k hkz, hk⟩

theorem EndsOnce.settleFlight (hu : c.Unique) (hflight : c.flight = some x)
    (hclear : c.BookClear book) (hb : c.MaySettle x book b) :
    EndsOnce { c.settle x b with flight := none } := by
  have hmem : ∀ k ∈ x.unclaimed, k ∈ x.keys := fun k hk ↦ (mem_unclaimed.mp hk).1
  refine h.settle hs hb hclear (fun k hk ↦ .flight x hflight hk)
    (fun k hk ↦ .flight x hflight hk) (hu.flight x hflight).1 rfl rfl rfl rfl fun k hk ↦ ?_
  cases hk with
  | queue hq =>
    rcases List.mem_append.mp hq with hq | hq
    · exact Or.inr ⟨.queue hq, fun hk ↦ (hu.flight x hflight).2 k (hmem k hk) hq⟩
    · exact Or.inl (mem_minted.mpr ⟨Or.inl hq, hb.sealed k hq⟩)
  | held hh =>
    have htaken := hs.held_taken k hh
    rw [hs.taken_eq_nil hflight] at htaken
    cases htaken
  | due hd hsealed =>
    rcases Multiset.mem_add.mp hd with hd | hd
    · refine Or.inr ⟨.due hd hsealed, fun hk ↦ ?_⟩
      exact hu.owed k (mem_owed.mpr ⟨Or.inl hd, hsealed⟩) (.flight x hflight (hmem k hk))
    · exact Or.inl (mem_minted.mpr ⟨Or.inr hd, hsealed⟩)
  | flight y hy hk => cases hy
  | released z hz hsighted hdone hk =>
    refine Or.inr ⟨.released z hz hsighted hdone hk, fun hkx ↦ ?_⟩
    obtain ⟨hkx, hnone⟩ := mem_unclaimed.mp hkx
    exact hu.claimed x hflight z hz hsighted k hk hkx hnone

theorem EndsOnce.place (hnew : k.pair ∉ c.placed) (hover : k.pair ∉ c.ended) :
    EndsOnce { c with
      queue := c.queue ++ [k], placed := k.pair :: c.placed, seen := k :: c.seen } := by
  have hother : ∀ k' ∈ c.seen, k'.pair ≠ k.pair := fun k' hk' hpair ↦
    hnew (hpair ▸ hs.seen_placed k' hk')
  have hfresh : k ∉ c.receipts := fun hr ↦ hother k (hs.known_seen k (.receipts hr)) rfl
  refine ⟨h.ended, fun k' hk' ↦ ?_, fun k₁ hk₁ k₂ hk₂ hpair hne ↦ ?_, h.due, fun k' hk' hbare ↦ ?_⟩
  · cases hk' with
    | queue hq =>
      rcases List.mem_append.mp hq with hq | hq
      · exact h.active k' (.queue hq)
      · cases List.mem_singleton.mp hq
        exact ⟨hfresh, hover⟩
    | held hh => exact h.active k' (.held hh)
    | due hd hsealed => exact h.active k' (.due hd hsealed)
    | flight x hx hk => exact h.active k' (.flight x hx hk)
    | released z hz hsighted hdone hk => exact h.active k' (.released z hz hsighted hdone hk)
  · rcases List.mem_cons.mp hk₁ with heq₁ | hold₁ <;> rcases List.mem_cons.mp hk₂ with heq₂ | hold₂
    · exact absurd (heq₁.trans heq₂.symm) hne
    · exact absurd (heq₁ ▸ hpair.symm) (hother k₂ hold₂)
    · exact absurd (heq₂ ▸ hpair) (hother k₁ hold₁)
    · exact h.line k₁ hold₁ k₂ hold₂ hpair hne
  · refine ⟨(h.bare k' hk' hbare).1, fun k₁ hk₁ hpair ↦ ?_⟩
    rcases List.mem_cons.mp hk₁ with rfl | hk₁
    · exact absurd (hpair ▸ hs.due_placed k' (Or.inl hk')) hnew
    · exact (h.bare k' hk' hbare).2 k₁ hk₁ hpair

theorem EndsOnce.cancel (hu : c.Unique) (p : Pair) :
    EndsOnce { c with
      queue := c.queue.filter fun k ↦ k.pair ≠ p
      ended := (c.queue.filter fun k ↦ k.pair = p).map OKey.pair ++ c.ended } := by
  have hhits : ∀ k ∈ c.queue.filter (fun k ↦ k.pair = p), k ∈ c.queue ∧ k.pair = p := fun k hk ↦ by
    simpa using hk
  have hnodup := hu.queue.filter (fun k ↦ decide (k.pair = p))
  have hkeep : ∀ k ∈ c.queue.filter (fun k ↦ k.pair ≠ p), k ∈ c.queue ∧ k.pair ≠ p := fun k hk ↦ by
    simpa using hk
  -- the queue lists at most one entry of the order
  rcases hcases : c.queue.filter fun k ↦ k.pair = p with _ | ⟨k, _ | ⟨k', rest⟩⟩
  · refine h.of_active (by simp [hcases]) rfl rfl le_rfl fun k hk ↦ Or.inl ?_
    exact hk.mono (fun hq ↦ .queue (hkeep k hq).1) (.held ·) (fun _ h ↦ h) (fun _ h ↦ h)
      (fun _ h ↦ h) fun _ _ h ↦ h
  · obtain ⟨hq, rfl⟩ := hhits k (by simp [hcases])
    refine h.of_end hs (.queue hq) (by simp [hcases]) rfl rfl le_rfl fun k' hk' ↦ ?_
    refine ⟨hk'.mono (fun hq ↦ .queue (hkeep k' hq).1) (.held ·) (fun _ h ↦ h) (fun _ h ↦ h)
      (fun _ h ↦ h) fun _ _ h ↦ h, fun heq ↦ ?_⟩
    subst heq
    cases hk' with
    | queue hq' => exact (hkeep _ hq').2 rfl
    | held hh => exact hu.queue_held _ hq hh
    | due hd hsealed => exact hu.owed _ (mem_owed.mpr ⟨Or.inl hd, hsealed⟩) (.queue hq)
    | flight x hx hk => exact (hu.flight x hx).2 _ (mem_unclaimed.mp hk).1 hq
    | released z hz hsighted hdone hk => exact (hu.sighted z hz hsighted _ hk).1 hq
  · obtain ⟨hq, hp⟩ := hhits k (by simp [hcases])
    obtain ⟨hq', hp'⟩ := hhits k' (by simp [hcases])
    rw [hcases] at hnodup
    have heq := h.eq_of_pair hs (.queue hq) (.queue hq') (hp.trans hp'.symm)
    simp [heq] at hnodup

theorem EndsOnce.endHeld (hu : c.Unique) (hk : k ∈ c.held) :
    EndsOnce { c with
      held := c.held.erase k, ended := k.pair :: c.ended, spent := k :: c.spent } := by
  refine h.of_end hs (.held hk) rfl rfl rfl le_rfl fun k' hk' ↦ ?_
  refine ⟨hk'.mono (.queue ·) (fun hh ↦ .held (Multiset.mem_of_mem_erase hh)) (fun _ h ↦ h)
    (fun _ h ↦ h) (fun _ h ↦ h) fun _ _ h ↦ h, fun heq ↦ ?_⟩
  subst heq
  cases hk' with
  | queue hq => exact hu.queue_held _ hq hk
  | held hh => exact (Multiset.Nodup.notMem_erase hu.held) hh
  | due hd hsealed => exact hu.owed _ (mem_owed.mpr ⟨Or.inl hd, hsealed⟩) (.held hk)
  | flight x hx hk' =>
    have htaken := hs.held_taken _ hk
    rw [hs.taken_eq_nil hx] at htaken
    cases htaken
  | released z hz hsighted hdone hk' => exact (hu.sighted z hz hsighted _ hk').2 hk

theorem EndsOnce.reseal (hk : k ∈ c.due) (hbare : k.commit = none)
    (hpair : k'.pair = k.pair) (hsealed : k'.commit ≠ none) (hnew : k' ∉ c.seen) :
    EndsOnce { c with due := k' ::ₘ c.due.erase k, seen := k' :: c.seen } := by
  obtain ⟨hover, hall⟩ := h.bare k hk hbare
  have hfresh : k' ∉ c.receipts := fun hr ↦ hnew (hs.known_seen k' (.receipts hr))
  refine ⟨h.ended, fun k₁ hk₁ ↦ ?_, fun k₁ hk₁ k₂ hk₂ hpair' hne ↦ ?_, ?_,
    fun k₁ hk₁ hbare₁ ↦ ?_⟩
  · cases hk₁ with
    | queue hq => exact h.active k₁ (.queue hq)
    | held hh => exact h.active k₁ (.held hh)
    | due hd hsealed₁ =>
      rcases Multiset.mem_cons.mp hd with rfl | hd
      · exact ⟨hfresh, hpair ▸ hover⟩
      · exact h.active k₁ (.due (Multiset.mem_of_mem_erase hd) hsealed₁)
    | flight x hx hk => exact h.active k₁ (.flight x hx hk)
    | released z hz hsighted hdone hk => exact h.active k₁ (.released z hz hsighted hdone hk)
  · rcases List.mem_cons.mp hk₁ with heq₁ | hold₁ <;> rcases List.mem_cons.mp hk₂ with heq₂ | hold₂
    · exact absurd (heq₁.trans heq₂.symm) hne
    · exact Or.inr (hall k₂ hold₂ (hpair'.symm.trans (heq₁ ▸ hpair)))
    · exact Or.inl (hall k₁ hold₁ (hpair'.trans (heq₂ ▸ hpair)))
    · exact h.line k₁ hold₁ k₂ hold₂ hpair' hne
  · refine Multiset.nodup_cons.mpr ⟨fun hmem ↦ hnew ?_, h.due.erase k⟩
    exact hs.known_seen k' (.due (Multiset.mem_of_mem_erase hmem) hsealed)
  · have hmem : k₁ ∈ c.due.erase k := (Multiset.mem_cons.mp hk₁).resolve_left fun heq ↦
      hsealed (heq ▸ hbare₁)
    refine ⟨(h.bare k₁ (Multiset.mem_of_mem_erase hmem) hbare₁).1, fun k₂ hk₂ hpair₂ ↦ ?_⟩
    rcases List.mem_cons.mp hk₂ with rfl | hk₂
    · -- two unsealed remainders of one order would be the same entry
      have heq : k₁ = k := by
        cases k₁
        cases k
        simp_all [OKey.pair]
      exact absurd (heq ▸ hmem) (Multiset.Nodup.notMem_erase h.due)
    · exact (h.bare k₁ (Multiset.mem_of_mem_erase hmem) hbare₁).2 k₂ hk₂ hpair₂

theorem EndsOnce.lapse (hu : c.Unique) (hk : k ∈ c.due) :
    EndsOnce { c with
      due := c.due.erase k, ended := k.pair :: c.ended, lapsed := k ::ₘ c.lapsed } := by
  have hmono : ∀ k', Active { c with
      due := c.due.erase k, ended := k.pair :: c.ended, lapsed := k ::ₘ c.lapsed } k' →
      c.Active k' := fun _ hk' ↦
    hk'.mono (.queue ·) (.held ·) (fun _ ↦ Multiset.mem_of_mem_erase) (fun _ h ↦ h) (fun _ h ↦ h)
      fun _ _ h ↦ h
  by_cases hbare : k.commit = none
  · obtain ⟨hover, hall⟩ := h.bare k hk hbare
    refine ⟨List.nodup_cons.mpr ⟨hover, h.ended⟩, fun k' hk' ↦ ?_, h.line, h.due.erase k,
      fun k' hk' hbare' ↦ ?_⟩
    · refine ⟨(h.active k' (hmono k' hk')).1, fun hp ↦ ?_⟩
      rcases List.mem_cons.mp hp with hp | hp
      · exact h.bare_alone hs hk hbare (hmono k' hk') hp
      · exact (h.active k' (hmono k' hk')).2 hp
    · refine ⟨fun hp ↦ ?_, (h.bare k' (Multiset.mem_of_mem_erase hk') hbare').2⟩
      rcases List.mem_cons.mp hp with hp | hp
      · have heq : k' = k := by
          cases k'
          cases k
          simp_all [OKey.pair]
        exact Multiset.Nodup.notMem_erase h.due (heq ▸ hk')
      · exact (h.bare k' (Multiset.mem_of_mem_erase hk') hbare').1 hp
  · have hnot := hu.owed k (mem_owed.mpr ⟨Or.inl hk, hbare⟩)
    refine h.of_end hs (.due hk hbare) rfl rfl rfl (Multiset.erase_le _ _) fun k' hk' ↦
      ⟨hmono k' hk', fun heq ↦ ?_⟩
    subst heq
    cases hk' with
    | queue hq => exact hnot (.queue hq)
    | held hh => exact hnot (.held hh)
    | due hd _ => exact Multiset.Nodup.notMem_erase h.due hd
    | flight x hx hk' => exact hnot (.flight x hx (mem_unclaimed.mp hk').1)
    | released z hz _ _ hk' => exact hnot (.released z hz hk')

omit hs in
/-- A move of the drain that ends nothing. -/
theorem EndsOnce.of_due (hended : d.ended = c.ended) (hreceipts : d.receipts = c.receipts)
    (hseen : d.seen = c.seen) (hdue : d.due ≤ c.due) (hactive : ∀ k, d.Active k → c.Active k) :
    d.EndsOnce :=
  h.of_active hended hreceipts hseen hdue fun k hk ↦ Or.inl (hactive k hk)

/-- Every move keeps each order ending once, under the condition. -/
theorem EndsOnce.move (hu : c.Unique) (ht : c.Tracked)
    (hmove : Move SettlesOnce c d) : d.EndsOnce := by
  cases hmove with
  | place k htaken hnew hG => exact h.place hs hnew hG
  | cancel p htaken => exact h.cancel hs hu p
  | take queue taken held hflight hheld htaken hqueue hsub hle hall hcover hapart =>
    refine h.of_active rfl rfl rfl le_rfl fun k hk ↦ Or.inl ?_
    refine hk.mono (fun hq ↦ .queue (hqueue.subset hq)) (fun hh ↦ .queue (hsub.subset ?_))
      (fun _ h ↦ h) (fun _ h ↦ h) (fun _ h ↦ h) fun _ _ h ↦ h
    exact Multiset.mem_coe.mp (Multiset.mem_of_le hle hh)
  | endHeld k hk => exact h.endHeld hs hu hk
  | giveBack back held hsplit =>
    refine h.of_active rfl rfl rfl le_rfl fun k hk ↦ Or.inl ?_
    refine hk.mono (fun hq ↦ ?_) (fun hh ↦ .held ?_) (fun _ h ↦ h) (fun _ h ↦ h) (fun _ h ↦ h)
      fun _ _ h ↦ h
    · rcases List.mem_append.mp hq with hq | hq
      · exact .held (by simp [hsplit, hq])
      · exact .queue hq
    · rw [hsplit]
      exact Multiset.mem_add.mpr (Or.inr hh)
  | requeue back hback hfree hcover =>
    refine h.of_active rfl rfl rfl le_rfl fun k hk ↦ Or.inl ?_
    refine hk.mono (fun hq ↦ ?_) (fun hh ↦ (by cases hh)) (fun _ h ↦ h) (fun _ h ↦ h)
      (fun _ h ↦ h) fun _ _ h ↦ h
    rcases List.mem_append.mp hq with hq | hq
    · -- what goes back was still in the build's hands
      obtain ⟨hspent, hqueue, hsight⟩ := hfree k hq
      rcases ht.taken k (hback.subset hq) with hh | hs' | hq' | ⟨z, hz, hz', -, hkz⟩
      · exact .held hh
      · exact absurd hs' hspent
      · exact absurd hq' hqueue
      · exact absurd hkz (hsight z hz hz')
    · exact .queue hq
  | finish hheld =>
    refine h.of_due rfl rfl rfl le_rfl fun k hk ↦ ?_
    exact hk.mono (.queue ·) (fun h ↦ (by cases h)) (fun _ h ↦ h) (fun _ h ↦ h) (fun _ h ↦ h)
      fun _ _ h ↦ h
  | register x hflight hkeys hclaimed href hG =>
    refine h.of_due rfl rfl rfl le_rfl fun k hk ↦ ?_
    cases hk with
    | queue hq => exact .queue hq
    | held hh => cases hh
    | due hd hsealed => exact .due hd hsealed
    | flight y hy hk =>
      cases Option.some.inj hy
      exact .held (by simpa [hkeys] using (mem_unclaimed.mp hk).1)
    | released z hz hsighted hdone hk =>
      exact .released z (List.mem_of_mem_filter hz) hsighted hdone hk
  | skip | closeDrain =>
    refine h.of_due rfl rfl rfl le_rfl fun k hk ↦ ?_
    exact hk.mono (.queue ·) (.held ·) (fun _ h ↦ h) (fun _ h ↦ h) (fun _ h ↦ h) fun _ _ h ↦ h
  | release x hflight =>
    refine h.of_due rfl rfl rfl le_rfl fun k hk ↦ ?_
    cases hk with
    | queue hq =>
      rcases List.mem_append.mp hq with hq | hq
      · exact .flight x hflight hq
      · exact .queue hq
    | held hh => exact .held hh
    | due hd hsealed => exact .due hd hsealed
    | flight y hy hk => cases hy
    | released z hz hsighted hdone hk =>
      rcases List.mem_append.mp hz with hz | hz
      · exact .released z hz hsighted hdone hk
      · cases List.mem_singleton.mp hz
        cases hsighted
  | forget released hsub hdrop =>
    refine h.of_due rfl rfl rfl le_rfl fun k hk ↦ ?_
    exact hk.mono (.queue ·) (.held ·) (fun _ h ↦ h) (fun _ h ↦ h) hsub.subset fun _ _ h ↦ h
  | sight z hz hsighted hG => exact h.sight hs hG hz
  | unsight z hturn hG => exact h.unsight hs ht hturn
  | settleReleased z book b hturn hG hb => exact h.settleReleased hs hu hturn hG.1 hG.2 hb
  | settleFlight x book b hflight hG hb => exact h.settleFlight hs hu hflight hG hb
  | closePass released hsub hdrop hkeep =>
    refine h.of_due rfl rfl rfl le_rfl fun k hk ↦ ?_
    exact hk.mono (.queue ·) (.held ·) (fun _ h ↦ h) (fun _ h ↦ h) hsub.subset
      fun z hz h ↦ absurd h (hkeep z hz)
  | abortPass dropped hdone hG =>
    refine h.of_due rfl rfl rfl le_rfl fun k hk ↦ ?_
    refine hk.mono (.queue ·) (.held ·) (fun _ h ↦ h) (fun _ h ↦ h) (fun _ h ↦ h) ?_
    intro z _ hz
    obtain ⟨w, hw, hw', -⟩ := hdone _ hz
    simp [hG w hw] at hw'
  | reseal k k' htaken hk hbare hpair hsealed hnew =>
    exact h.reseal hs hk hbare hpair hsealed hnew
  | repost k htaken hk hsealed =>
    refine h.of_due rfl rfl rfl (Multiset.erase_le _ _) fun k' hk' ↦ ?_
    refine hk'.mono (fun hq ↦ ?_) (.held ·) (fun _ hd ↦ Multiset.mem_of_mem_erase hd) (fun _ h ↦ h)
      (fun _ h ↦ h) fun _ _ h ↦ h
    rcases List.mem_append.mp hq with hq | hq
    · exact .queue hq
    · cases List.mem_singleton.mp hq
      exact .due hk hsealed
  | lapse k htaken hk => exact h.lapse hs hu hk
  | abortDrain retry reposted lapsed hrepost hlapse hretry hG =>
    have hdue : (retry : Multiset OKey) = c.due := by
      rw [hretry, hG.1, hG.2]
      simp
    refine h.of_due rfl rfl rfl hdue.le fun k hk ↦ ?_
    exact hk.mono (.queue ·) (.held ·) (fun k h ↦ hdue ▸ h) (fun _ h ↦ h) (fun _ h ↦ h)
      fun _ _ h ↦ h

end

end Custody

end Jamswap.Builder
