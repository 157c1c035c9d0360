import Jamswap.Builder.Protocol

/-!
# No order is queued twice

Along any moves where two things never happen, the mempool lists no key twice, and lists no key of
the round in flight or of a sighted released round (`Custody.Unique`). The two things are: the drain
of the carry-retry queue stops after it re-posted a remainder (the queue then still lists it), and
the landing of a released round is undone while the round in flight marks as claimed by it an order
that another sighted round carries too (the mark is erased, so the order comes back when the round
in flight is released).
-/

namespace Jamswap.Builder

open Library Engine

/-- Whatever the round in flight marks as claimed by `z` is carried by no other sighted round. -/
def View.ClaimsOnly (v : View) (z : Holding) : Prop :=
  ∀ x, v.flight = some x → ∀ k ∈ x.keys, x.claimed k = some z.rid →
    ∀ y ∈ v.released, y.ref ≠ z.ref → y.sighted = true → k ∉ y.keys

/-- The decisions after which the queue stays free of duplicates. -/
def NoDoubleQueue : Incident → Prop
  | .reverted z v => v.ClaimsOnly z
  | .drainAborted reposted _ => reposted = []
  | _ => True

variable {k : OKey} {z x : Holding}

namespace Custody

/-- A container other than the carry-retry queue lists the key. -/
@[grind]
inductive Carries (c : Custody) (k : OKey) : Prop
  | queue (h : k ∈ c.queue)
  | held (h : k ∈ c.held)
  | taken (h : k ∈ c.taken)
  | flight (x : Holding) (hx : c.flight = some x) (h : k ∈ x.keys)
  | released (z : Holding) (hz : z ∈ c.released) (h : k ∈ z.keys)

/-- The sealed remainders owed, with those a drain has ended but not struck off. -/
def owed (c : Custody) : Multiset OKey := (c.due + c.lapsed).filter fun k ↦ k.commit ≠ none

/-- Every key has one place. -/
structure Unique (c : Custody) : Prop where
  queue : c.queue.Nodup
  held : c.held.Nodup
  taken : c.taken.Nodup
  queue_held : ∀ k ∈ c.queue, k ∉ c.held
  flight : ∀ x, c.flight = some x → x.keys.Nodup ∧ ∀ k ∈ x.keys, k ∉ c.queue
  released : ∀ z ∈ c.released, z.keys.Nodup
  sighted : ∀ z ∈ c.released, z.sighted = true → ∀ k ∈ z.keys, k ∉ c.queue ∧ k ∉ c.held
  claimed : ∀ x, c.flight = some x → ∀ z ∈ c.released, z.sighted = true →
    ∀ k ∈ z.keys, k ∈ x.keys → x.claimed k ≠ none
  owed_nodup : c.owed.Nodup
  owed : ∀ k ∈ c.owed, ¬ c.Carries k

variable {c d : Custody}

theorem mem_owed : k ∈ c.owed ↔ (k ∈ c.due ∨ k ∈ c.lapsed) ∧ k.commit ≠ none := by
  rw [Custody.owed, Multiset.mem_filter, Multiset.mem_add]

theorem Carries.known (h : c.Carries k) : c.Known k := by
  cases h <;> grind

/-- A move that puts no key into a container keeps the owed remainders apart. -/
theorem Unique.owed_of (h : c.Unique) (howed : ∀ k ∈ d.owed, k ∈ c.owed)
    (hcarries : ∀ k ∈ c.owed, d.Carries k → c.Carries k) : ∀ k ∈ d.owed, ¬ d.Carries k :=
  fun k hk hc ↦ h.owed k (howed k hk) (hcarries k (howed k hk) hc)

theorem Unique.sight (hs : c.Sound) (h : c.Unique) (hz : z ∈ c.released) : (c.sight z).Unique := by
  have hqueue : ∀ k ∈ (c.sight z).queue, k ∈ c.queue ∧ k ∉ z.keys := fun k hk ↦ by
    simpa [Custody.sight] using hk
  have hheld : ∀ k ∈ (c.sight z).held, k ∈ c.held ∧ k ∉ z.keys := fun k hk ↦ by
    simpa [Custody.sight] using hk
  refine {
    queue := h.queue.filter _
    held := h.held.filter _
    taken := h.taken
    queue_held := fun k hk hk' ↦ h.queue_held k (hqueue k hk).1 (hheld k hk').1
    flight := fun y hy ↦ ?_
    released := fun y hy ↦ ?_
    sighted := fun y hy hy' k hk ↦ ?_
    claimed := fun y hy w hw hw' k hk hky ↦ ?_
    owed_nodup := h.owed_nodup
    owed := h.owed_of (fun _ hk ↦ hk) fun k _ hc ↦ ?_ }
  · obtain ⟨x, hx, rfl⟩ := Option.map_eq_some_iff.mp hy
    rw [(z.sameRound_note x).keys]
    exact ⟨(h.flight x hx).1, fun k hk hq ↦ (h.flight x hx).2 k hk (hqueue k hq).1⟩
  · obtain ⟨x, hx, rfl⟩ := List.mem_map.mp hy
    rw [(z.sameRound_sight x true).keys]
    exact h.released x hx
  · obtain ⟨x, hx, rfl⟩ := List.mem_map.mp hy
    rw [(z.sameRound_sight x true).keys] at hk
    by_cases hne : x.ref = z.ref
    · cases hs.eq_of_ref hx hz hne
      exact ⟨fun hq ↦ (hqueue k hq).2 hk, fun hh ↦ (hheld k hh).2 hk⟩
    · rw [split_of_ne hne] at hy'
      have hapart := h.sighted x hx hy' k hk
      exact ⟨fun hq ↦ hapart.1 (hqueue k hq).1, fun hh ↦ hapart.2 (hheld k hh).1⟩
  · obtain ⟨x, hx, rfl⟩ := Option.map_eq_some_iff.mp hy
    obtain ⟨v, hv, rfl⟩ := List.mem_map.mp hw
    have hxz : x.ref ≠ z.ref := Ne.symm ((hs.flight_ref x hx).2 z hz)
    rw [(z.sameRound_sight v true).keys] at hk
    rw [(z.sameRound_note x).keys] at hky
    rw [split_of_ne hxz]
    simp only [Holding.noteClaim]
    split
    · simp
    · next hnot =>
      -- not an order of the landed round: the older claim stands
      have hkz : k ∉ z.keys := fun hkz ↦ hnot ⟨hky, hkz⟩
      have hvz : v.ref ≠ z.ref := fun href ↦ hkz (hs.eq_of_ref hv hz href ▸ hk)
      rw [split_of_ne hvz] at hw'
      exact h.claimed x hx v hv hw' k hk hky
  · cases hc with
    | queue hk => exact .queue (hqueue k hk).1
    | held hk => exact .held (hheld k hk).1
    | taken hk => exact .taken hk
    | flight y hy hk =>
      obtain ⟨x, hx, rfl⟩ := Option.map_eq_some_iff.mp hy
      exact .flight x hx ((z.sameRound_note x).keys ▸ hk)
    | released y hy hk =>
      obtain ⟨x, hx, rfl⟩ := List.mem_map.mp hy
      exact .released x hx ((z.sameRound_sight x true).keys ▸ hk)

/-- What goes back to the mempool when a landing is undone is in nobody else's hands. -/
theorem notMem_busy (h : k ∉ c.busy z) : k ∉ c.queue ∧
    (∀ x, c.flight = some x → x.ref ≠ z.ref → k ∉ x.keys) ∧
    ∀ y ∈ c.released, y.ref ≠ z.ref → y.sighted = true → k ∉ y.keys := by
  refine ⟨fun hq ↦ h ?_, fun x hx hne hk ↦ h ?_, fun y hy hne hsighted hk ↦ h ?_⟩
  · exact List.mem_append_right _ hq
  · refine List.mem_append_left _ (List.mem_flatMap.mpr ⟨x, List.mem_append_left _ ?_, hk⟩)
    exact List.mem_filter.mpr ⟨Option.mem_toList.mpr hx, by simpa using hne⟩
  · refine List.mem_append_left _ (List.mem_flatMap.mpr ⟨y, List.mem_append_right _ ?_, hk⟩)
    exact List.mem_filter.mpr ⟨hy, by simp [hne, hsighted]⟩

theorem Unique.unsight (hs : c.Sound) (h : c.Unique) (hz : z ∈ c.released)
    (hsighted : z.sighted = true) (hclaims : c.ClaimsOnly z) : (c.unsight z).Unique := by
  have hback : ∀ k ∈ z.keys.filter (fun k ↦ k ∉ c.busy z), k ∈ z.keys ∧ k ∉ c.busy z :=
    fun k hk ↦ by simpa using List.mem_filter.mp hk
  have hstill : ∀ x ∈ c.released, (z.split (Holding.setSighted false) z.dropClaim x).sighted =
      true → x.ref ≠ z.ref ∧ x.sighted = true := by
    intro x hx hx'
    by_cases hne : x.ref = z.ref
    · rw [split_of_eq hne] at hx'
      cases hx'
    · rw [split_of_ne hne] at hx'
      exact ⟨hne, hx'⟩
  refine {
    queue := ?_
    held := h.held
    taken := h.taken
    queue_held := fun k hk ↦ ?_
    flight := fun y hy ↦ ?_
    released := fun y hy ↦ ?_
    sighted := fun y hy hy' k hk ↦ ?_
    claimed := fun y hy w hw hw' k hk hky ↦ ?_
    owed_nodup := h.owed_nodup
    owed := h.owed_of (fun _ hk ↦ hk) fun k _ hc ↦ ?_ }
  · refine List.nodup_append'.mpr ⟨(h.released z hz).filter _, h.queue, fun k hk hq ↦ ?_⟩
    exact (notMem_busy (hback k hk).2).1 hq
  · rcases List.mem_append.mp hk with hk | hk
    · exact (h.sighted z hz hsighted k (hback k hk).1).2
    · exact h.queue_held k hk
  · obtain ⟨x, hx, rfl⟩ := Option.map_eq_some_iff.mp hy
    rw [(z.sameRound_drop x).keys]
    refine ⟨(h.flight x hx).1, fun k hk hq ↦ ?_⟩
    rcases List.mem_append.mp hq with hq | hq
    · exact (notMem_busy (hback k hq).2).2.1 x hx (Ne.symm ((hs.flight_ref x hx).2 z hz)) hk
    · exact (h.flight x hx).2 k hk hq
  · obtain ⟨x, hx, rfl⟩ := List.mem_map.mp hy
    rw [(z.sameRound_unsight x false).keys]
    exact h.released x hx
  · obtain ⟨x, hx, rfl⟩ := List.mem_map.mp hy
    rw [(z.sameRound_unsight x false).keys] at hk
    obtain ⟨hne, hx'⟩ := hstill x hx hy'
    have hapart := h.sighted x hx hx' k hk
    refine ⟨fun hq ↦ ?_, hapart.2⟩
    rcases List.mem_append.mp hq with hq | hq
    · exact (notMem_busy (hback k hq).2).2.2 x hx hne hx' hk
    · exact hapart.1 hq
  · obtain ⟨x, hx, rfl⟩ := Option.map_eq_some_iff.mp hy
    obtain ⟨v, hv, rfl⟩ := List.mem_map.mp hw
    rw [(z.sameRound_unsight v false).keys] at hk
    rw [(z.sameRound_drop x).keys] at hky
    obtain ⟨hvz, hv'⟩ := hstill v hv hw'
    rw [split_of_ne (Ne.symm ((hs.flight_ref x hx).2 z hz))]
    simp only [Holding.dropClaim]
    split
    · next hrid => exact absurd hk (hclaims x hx k hky hrid v hv hvz hv')
    · exact h.claimed x hx v hv hv' k hk hky
  · cases hc with
    | queue hk =>
      rcases List.mem_append.mp hk with hk | hk
      · exact .released z hz (hback k hk).1
      · exact .queue hk
    | held hk => exact .held hk
    | taken hk => exact .taken hk
    | flight y hy hk =>
      obtain ⟨x, hx, rfl⟩ := Option.map_eq_some_iff.mp hy
      exact .flight x hx ((z.sameRound_drop x).keys ▸ hk)
    | released y hy hk =>
      obtain ⟨x, hx, rfl⟩ := List.mem_map.mp hy
      exact .released x hx ((z.sameRound_unsight x false).keys ▸ hk)

theorem Unique.release (hs : c.Sound) (h : c.Unique) (hflight : c.flight = some x) :
    (c.release x).Unique := by
  have hmem : ∀ k ∈ x.unclaimed, k ∈ x.keys ∧ x.claimed k = none := fun k hk ↦
    mem_unclaimed.mp hk
  have hidle : c.taken = [] := by
    by_contra htaken
    simp [hs.build_alone htaken] at hflight
  have hempty : ∀ k, k ∉ c.held := fun k hk ↦ by
    have := hs.held_taken k hk
    simp [hidle] at this
  refine { h with
    queue := ?_
    queue_held := fun k _ ↦ hempty k
    flight := fun y hy ↦ (by cases hy)
    released := fun z hz ↦ ?_
    sighted := fun z hz hz' k hk ↦ ⟨fun hq ↦ ?_, hempty k⟩
    claimed := fun y hy ↦ (by cases hy)
    owed := h.owed_of (fun _ hk ↦ hk) fun k _ hc ↦ ?_ }
  · refine List.nodup_append'.mpr ⟨(h.flight x hflight).1.filter _, h.queue, fun k hk hq ↦ ?_⟩
    exact (h.flight x hflight).2 k (hmem k hk).1 hq
  · rcases List.mem_append.mp hz with hz | hz
    · exact h.released z hz
    · cases List.mem_singleton.mp hz
      exact (h.flight x hflight).1
  · rcases List.mem_append.mp hz with hz | hz
    · rcases List.mem_append.mp hq with hq | hq
      · exact h.claimed x hflight z hz hz' k hk (hmem k hq).1 (hmem k hq).2
      · exact (h.sighted z hz hz' k hk).1 hq
    · cases List.mem_singleton.mp hz
      cases hz'
  · cases hc with
    | queue hk =>
      rcases List.mem_append.mp hk with hk | hk
      · exact .flight x hflight (hmem k hk).1
      · exact .queue hk
    | held hk => exact .held hk
    | taken hk => exact .taken hk
    | flight y hy hk => cases hy
    | released y hy hk =>
      rcases List.mem_append.mp hy with hy | hy
      · exact .released y hy hk
      · cases List.mem_singleton.mp hy
        exact .flight x hflight hk

theorem Unique.register (h : c.Unique) (hkeys : c.held = x.keys) : (c.register x).Unique := by
  have hmem : ∀ k ∈ x.keys, k ∈ c.held := fun k hk ↦ by simp [hkeys, hk]
  have hnodup : x.keys.Nodup := by
    have := h.held
    rwa [hkeys, Multiset.coe_nodup] at this
  refine { h with
    held := Multiset.nodup_zero
    taken := List.nodup_nil
    queue_held := fun _ _ hh ↦ (by cases hh)
    flight := fun y hy ↦ ?_
    released := fun z hz ↦ h.released z (List.mem_of_mem_filter hz)
    sighted := fun z hz hz' k hk ↦
      ⟨(h.sighted z (List.mem_of_mem_filter hz) hz' k hk).1, fun hh ↦ (by cases hh)⟩
    claimed := fun y hy z hz hz' k hk hky ↦ ?_
    owed := h.owed_of (fun _ hk ↦ hk) fun k _ hc ↦ ?_ }
  · cases Option.some.inj hy
    exact ⟨hnodup, fun k hk hq ↦ h.queue_held k hq (hmem k hk)⟩
  · cases Option.some.inj hy
    exact absurd (hmem k hky) (h.sighted z (List.mem_of_mem_filter hz) hz' k hk).2
  · cases hc with
    | queue hk => exact .queue hk
    | held hk | taken hk => cases hk
    | flight y hy hk =>
      cases Option.some.inj hy
      exact .held (hmem k hk)
    | released y hy hk => exact .released y (List.mem_of_mem_filter hy) hk

/-- Containers that only lose keys hold each key once. -/
theorem Unique.shrink (h : c.Unique) (hqueue : d.queue.Sublist c.queue) (hheld : d.held ≤ c.held)
    (htaken : d.taken.Sublist c.taken) (hflight : ∀ x, d.flight = some x → c.flight = some x)
    (hreleased : d.released ⊆ c.released) (howed : d.owed ≤ c.owed) : d.Unique where
  queue := h.queue.sublist hqueue
  held := Multiset.nodup_of_le hheld h.held
  taken := h.taken.sublist htaken
  queue_held k hk hh := h.queue_held k (hqueue.subset hk) (Multiset.mem_of_le hheld hh)
  flight x hx := (h.flight x (hflight x hx)).imp_right fun hapart k hk hq ↦
    hapart k hk (hqueue.subset hq)
  released z hz := h.released z (hreleased hz)
  sighted z hz hz' k hk := (h.sighted z (hreleased hz) hz' k hk).imp
    (fun hapart hq ↦ hapart (hqueue.subset hq)) fun hapart hh ↦ hapart (Multiset.mem_of_le hheld hh)
  claimed x hx z hz := h.claimed x (hflight x hx) z (hreleased hz)
  owed_nodup := Multiset.nodup_of_le howed h.owed_nodup
  owed := h.owed_of (fun _ hk ↦ Multiset.mem_of_le howed hk) fun k _ hc ↦ by
    cases hc with
    | queue hk => exact .queue (hqueue.subset hk)
    | held hk => exact .held (Multiset.mem_of_le hheld hk)
    | taken hk => exact .taken (htaken.subset hk)
    | flight x hx hk => exact .flight x (hflight x hx) hk
    | released z hz hk => exact .released z (hreleased hz) hk

theorem Unique.drop (h : c.Unique) {released : List Holding} {done : List ℕ}
    (hsub : released ⊆ c.released) : Unique { c with released, done } :=
  h.shrink (.refl _) le_rfl (.refl _) (fun _ hx ↦ hx) hsub le_rfl

/-- Keys that no container lists may join the mempool. -/
theorem Unique.enqueue (h : c.Unique) {new : List OKey} (hnodup : new.Nodup)
    (hnew : ∀ k ∈ new, ¬ c.Carries k) :
    (c.queue ++ new).Nodup ∧ (∀ k ∈ c.queue ++ new, k ∉ c.held) ∧
      (∀ x, c.flight = some x → x.keys.Nodup ∧ ∀ k ∈ x.keys, k ∉ c.queue ++ new) ∧
      ∀ z ∈ c.released, z.sighted = true → ∀ k ∈ z.keys, k ∉ c.queue ++ new ∧ k ∉ c.held := by
  refine ⟨?_, fun k hk hh ↦ ?_, fun x hx ↦ ⟨(h.flight x hx).1, fun k hk hq ↦ ?_⟩,
    fun z hz hz' k hk ↦ ⟨fun hq ↦ ?_, (h.sighted z hz hz' k hk).2⟩⟩
  · exact List.nodup_append'.mpr ⟨h.queue, hnodup, fun k hk hq ↦ hnew k hq (.queue hk)⟩
  · exact (List.mem_append.mp hk).elim (h.queue_held k · hh) (hnew k · (.held hh))
  · exact (List.mem_append.mp hq).elim ((h.flight x hx).2 k hk) (hnew k · (.flight x hx hk))
  · exact (List.mem_append.mp hq).elim (h.sighted z hz hz' k hk).1 (hnew k · (.released z hz hk))

/-- A settlement brings only keys nobody has seen. -/
theorem Unique.settle (hs : c.Sound) (h : c.Unique) {book : List Pair} {b : Settlement}
    (hb : c.MaySettle x book b) : (c.settle x b).Unique := by
  have hqueued : ∀ k ∈ b.queued, k ∈ b.minted := fun k hk ↦
    mem_minted.mpr ⟨Or.inl hk, hb.sealed k hk⟩
  have hfresh : ∀ k ∈ b.queued, ¬ c.Carries k := fun k hk hc ↦
    hb.minted k (hqueued k hk) (hs.known_seen k hc.known)
  have hnodup := hb.nodup
  rw [Settlement.minted, List.filter_append, List.nodup_append'] at hnodup
  have hsealed : b.queued.filter (fun k ↦ k.commit ≠ none) = b.queued :=
    List.filter_eq_self.mpr fun k hk ↦ by simpa using hb.sealed k hk
  rw [hsealed] at hnodup
  have howed : (c.settle x b).owed =
      c.owed + (b.retried.filter fun k ↦ k.commit ≠ none : List OKey) := by
    simp only [Custody.owed, Custody.settle, Multiset.filter_add, Multiset.filter_coe]
    exact add_right_comm _ _ _
  have hseen : ∀ k ∈ c.owed, k ∈ c.seen := fun k hk ↦ by
    obtain ⟨hdue | hlapsed, hk'⟩ := mem_owed.mp hk
    · exact hs.known_seen k (.due hdue hk')
    · exact hs.known_seen k (.lapsed hlapsed hk')
  have hretried : ∀ k ∈ b.retried.filter (fun k ↦ k.commit ≠ none), k ∉ c.seen := fun k hk ↦ by
    obtain ⟨hk, hk'⟩ := List.mem_filter.mp hk
    exact hb.minted k (mem_minted.mpr ⟨Or.inr hk, by simpa using hk'⟩)
  obtain ⟨hqueue, hheld, hflight, hsighted⟩ := h.enqueue hnodup.1 hfresh
  refine { h with
    queue := hqueue, queue_held := hheld, flight := hflight, sighted := hsighted
    owed_nodup := ?_
    owed := fun k hk hc ↦ ?_ }
  · rw [howed, Multiset.nodup_add]
    refine ⟨h.owed_nodup, Multiset.coe_nodup.mpr hnodup.2.1, ?_⟩
    exact Multiset.disjoint_left.mpr fun hk hr ↦ hretried _ hr (hseen _ hk)
  · rw [howed, Multiset.mem_add, Multiset.mem_coe] at hk
    have hplace : c.Carries k ∨ k ∈ b.queued := by
      cases hc with
      | queue hq => exact (List.mem_append.mp hq).imp (fun hq ↦ .queue hq) id
      | _ => grind [Custody.settle]
    rcases hk with hk | hk
    · rcases hplace with hc | hq
      · exact h.owed k hk hc
      · exact hb.minted k (hqueued k hq) (hseen k hk)
    · rcases hplace with hc | hq
      · exact hretried k hk (hs.known_seen k hc.known)
      · exact hnodup.2.2 hq hk

/-- Every move keeps each key in one place, under the condition. -/
theorem Unique.move (hs : c.Sound) (h : c.Unique) (hmove : Move NoDoubleQueue c d) : d.Unique := by
  have hseen := hs.known_seen
  cases hmove with
  | place k htaken hnew hG =>
    have hfresh : ¬ c.Known k := fun hk ↦ hnew (hs.seen_placed k (hseen k hk))
    obtain ⟨hqueue, hheld, hflight, hsighted⟩ := h.enqueue (List.nodup_singleton k) fun k' hk' hc ↦
      hfresh (List.mem_singleton.mp hk' ▸ hc.known)
    refine { h with
      queue := hqueue, queue_held := hheld, flight := hflight, sighted := hsighted
      owed := h.owed_of (fun _ hk ↦ hk) fun k' hk' hc ↦ ?_ }
    have := mem_owed.mp hk'
    grind
  | cancel p htaken =>
    exact h.shrink List.filter_sublist le_rfl (.refl _) (fun _ hx ↦ hx) (List.Subset.refl _) le_rfl
  | take queue taken held hflight hheld htaken hqueue hsub hle hall hcover hapart =>
    have hlow : ∀ k ∈ held, k ∈ taken := fun k hk ↦ Multiset.mem_coe.mp (Multiset.mem_of_le hle hk)
    have htake : taken.Nodup := h.queue.sublist hsub
    have hfrom : ∀ k, k ∈ queue ∨ k ∈ taken → k ∈ c.queue := fun k hk ↦
      hk.elim (fun hk ↦ hqueue.subset hk) fun hk ↦ hsub.subset hk
    refine { h with
      queue := h.queue.sublist hqueue
      held := Multiset.nodup_of_le hle htake
      taken := htake
      queue_held := fun k hk hk' ↦ hapart h.queue k hk (hlow k hk')
      flight := fun x hx ↦ (by simp [hflight] at hx)
      sighted := fun z hz hz' k hk ↦ ?_
      owed := h.owed_of (fun _ hk ↦ hk) fun k' hk' hc ↦ ?_ }
    · have := (h.sighted z hz hz' k hk).1
      exact ⟨fun hq ↦ this (hfrom k (Or.inl hq)), fun hh ↦ this (hfrom k (Or.inr (hlow k hh)))⟩
    · grind
  | endHeld k hk =>
    exact h.shrink (.refl _) (Multiset.erase_le k _) (.refl _) (fun _ hx ↦ hx) (List.Subset.refl _)
      le_rfl
  | giveBack back held hsplit =>
    have hnodup := h.held
    rw [hsplit, Multiset.nodup_add] at hnodup
    have hback : ∀ k ∈ back, k ∈ c.held := fun k hk ↦ by simp [hsplit, hk]
    have hlow : ∀ k ∈ held, k ∈ c.held := fun k hk ↦ by simp [hsplit, hk]
    refine { h with
      queue := ?_
      held := hnodup.2.1
      queue_held := fun k hk hh ↦ ?_
      flight := fun x hx ↦ ⟨(h.flight x hx).1, fun k hk hq ↦ ?_⟩
      sighted := fun z hz hz' k hk ↦ ?_
      owed := h.owed_of (fun _ hk ↦ hk) fun k _ hc ↦ ?_ }
    · refine List.nodup_append'.mpr ⟨Multiset.coe_nodup.mp hnodup.1, h.queue, fun k hk hq ↦ ?_⟩
      exact h.queue_held k hq (hback k hk)
    · rcases List.mem_append.mp hk with hk | hk
      · exact Multiset.disjoint_left.mp hnodup.2.2 (Multiset.mem_coe.mpr hk) hh
      · exact h.queue_held k hk (hlow k hh)
    · rcases List.mem_append.mp hq with hq | hq
      · -- nothing is in flight while a build holds orders
        have htaken : c.taken ≠ [] := List.ne_nil_of_mem (hs.held_taken k (hback k hq))
        exact absurd (hs.build_alone htaken) (by simp [show c.flight = some x from hx])
      · exact (h.flight x hx).2 k hk hq
    · have hapart := h.sighted z hz hz' k hk
      refine ⟨fun hq ↦ ?_, fun hh ↦ hapart.2 (hlow k hh)⟩
      exact (List.mem_append.mp hq).elim (fun hq ↦ hapart.2 (hback k hq)) hapart.1
    · simp only [Custody.giveBack] at hc
      grind
  | requeue back hback hfree hcover =>
    have hlow : ∀ k ∈ back, k ∈ c.taken := fun k hk ↦ hback.subset hk
    refine { h with
      queue := ?_
      held := Multiset.nodup_zero
      taken := List.nodup_nil
      queue_held := fun _ _ hh ↦ (by cases hh)
      flight := fun x hx ↦ ⟨(h.flight x hx).1, fun k hk hq ↦ ?_⟩
      sighted := fun z hz hz' k hk ↦ ⟨fun hq ↦ ?_, fun hh ↦ (by cases hh)⟩
      owed := h.owed_of (fun _ hk ↦ hk) fun k _ hc ↦ ?_ }
    · exact List.nodup_append'.mpr ⟨h.taken.sublist hback, h.queue, fun k hk ↦ (hfree k hk).2.1⟩
    · rcases List.mem_append.mp hq with hq | hq
      · have htaken : c.taken ≠ [] := List.ne_nil_of_mem (hlow k hq)
        exact absurd (hs.build_alone htaken) (by simp [show c.flight = some x from hx])
      · exact (h.flight x hx).2 k hk hq
    · rcases List.mem_append.mp hq with hq | hq
      · exact (hfree k hq).2.2 z hz hz' hk
      · exact (h.sighted z hz hz' k hk).1 hq
    · simp only [Custody.giveBack, Custody.finish] at hc
      grind
  | finish hheld =>
    exact h.shrink (.refl _) (Multiset.zero_le _) (List.nil_sublist _) (fun _ hx ↦ hx)
      (List.Subset.refl _) le_rfl
  | register x hflight hkeys hclaimed href hG => exact h.register hkeys
  | skip => exact h.shrink (.refl _) le_rfl (.refl _) (fun _ hx ↦ hx) (List.Subset.refl _) le_rfl
  | release x hflight => exact h.release hs hflight
  | forget released hsub hdrop => exact h.drop hsub.subset
  | sight z hz hsighted hG => exact h.sight hs hz
  | unsight z hturn hG => exact h.unsight hs hturn.mem hturn.sighted hG
  | settleReleased z book b hturn hG hb =>
    exact (h.settle hs hb).drop fun _ hz ↦ hz
  | settleFlight x book b hflight hG hb =>
    exact (h.settle hs hb).shrink (.refl _) le_rfl (.refl _) (fun _ hx ↦ (by cases hx))
      (List.Subset.refl _) le_rfl
  | closePass released hsub hdrop hkeep => exact h.drop hsub.subset
  | abortPass dropped hdone hG => exact h.drop fun _ hz ↦ hz
  | reseal k k' htaken hk hbare hpair hsealed hnew =>
    obtain ⟨rest, hrest⟩ := Multiset.exists_cons_of_mem hk
    have howed : Custody.owed { c with due := k' ::ₘ c.due.erase k, seen := k' :: c.seen } =
        k' ::ₘ c.owed := by
      simp [Custody.owed, hrest, hbare, hsealed]
    have hfresh : k' ∉ c.owed := fun hmem ↦ by
      obtain ⟨hdue | hlapsed, hk'⟩ := mem_owed.mp hmem
      · exact hnew (hseen k' (.due hdue hk'))
      · exact hnew (hseen k' (.lapsed hlapsed hk'))
    refine { h with
      owed_nodup := howed ▸ Multiset.nodup_cons.mpr ⟨hfresh, h.owed_nodup⟩
      owed := fun k₁ hk₁ hc ↦ ?_ }
    have hplace : c.Carries k₁ := by grind
    rw [howed, Multiset.mem_cons] at hk₁
    rcases hk₁ with rfl | hk₁
    · exact hnew (hseen k₁ hplace.known)
    · exact h.owed k₁ hk₁ hplace
  | repost k htaken hk hsealed =>
    obtain ⟨rest, hrest⟩ := Multiset.exists_cons_of_mem hk
    have howed : c.owed = k ::ₘ Custody.owed { c with
        due := c.due.erase k, queue := c.queue ++ [k], reposted := k ::ₘ c.reposted } := by
      simp [Custody.owed, hrest, hsealed]
    have hnodup := h.owed_nodup
    rw [howed, Multiset.nodup_cons] at hnodup
    have hmem : k ∈ c.owed := howed ▸ Multiset.mem_cons_self _ _
    obtain ⟨hqueue, hheld, hflight, hsighted⟩ := h.enqueue (List.nodup_singleton k) fun k' hk' ↦
      List.mem_singleton.mp hk' ▸ h.owed k hmem
    refine { h with
      queue := hqueue, queue_held := hheld, flight := hflight, sighted := hsighted
      owed_nodup := hnodup.2
      owed := fun k₁ hk₁ hc ↦ ?_ }
    have hne : k₁ ≠ k := fun heq ↦ hnodup.1 (heq ▸ hk₁)
    refine h.owed k₁ (howed ▸ Multiset.mem_cons_of_mem hk₁) ?_
    grind
  | lapse k htaken hk =>
    have howed : Custody.owed { c with
        due := c.due.erase k, ended := k.pair :: c.ended, lapsed := k ::ₘ c.lapsed } = c.owed := by
      simp only [Custody.owed]
      rw [Multiset.add_cons, ← Multiset.cons_add, Multiset.cons_erase hk]
    exact h.shrink (.refl _) le_rfl (.refl _) (fun _ hx ↦ hx) (List.Subset.refl _) howed.le
  | closeDrain retry hdue =>
    have howed : Custody.owed { c with retry, reposted := 0, lapsed := 0 } ≤ c.owed :=
      Multiset.filter_le_filter _ (Multiset.add_le_add_left (Multiset.zero_le _))
    exact h.shrink (.refl _) le_rfl (.refl _) (fun _ hx ↦ hx) (List.Subset.refl _) howed
  | abortDrain retry reposted lapsed hrepost hlapse hretry hG =>
    have howed : Custody.owed { c with retry, due := retry, reposted := 0, lapsed := 0 } =
        c.owed := by
      have hnone : reposted = [] := hG
      simp only [Custody.owed, hretry, hlapse, hnone]
      simp
    exact h.shrink (.refl _) le_rfl (.refl _) (fun _ hx ↦ hx) (List.Subset.refl _) howed.le

end Custody

end Jamswap.Builder
