import Jamswap.Builder.Crossing

/-!
# Refilling a batch

`planBatch` fits its candidates into a batch, takes out the sealed orders whose counterparties did
not fit, and tries again. `planBatches` is the list of the batches of its passes. A capacity policy
is prefix-closed (`Policy`) when taking sealed orders out of the candidates drops no order it
admitted before, and the server's `capBatch` is. Crossing being mutual, the orders taken out are no
other order's counterparty, so every pass keeps the reveals and the public orders of the pass before
it, and the last one leaves nothing stuck (`planBatch_converges`).

Sealed orders that wait whatever the batch is take part in no pass (`planBatch_withheld_neutral`),
and no account's newer public order is batched while an older one is left over
(`planBatch_no_overtaking`).
-/

namespace Jamswap.Builder

open Library

/-! ### Capacity policies -/

/-- A policy selects from its candidates, and taking sealed orders out of the candidates drops none
of those it admitted. -/
structure Policy (fit : List Order → List Order) : Prop where
  selects : ∀ cands, (fit cands).Subperm cands
  prefixClosed : ∀ (cands : List Order) {keep : Order → Bool},
    (∀ o : Order, o.sealed = false → keep o = true) →
      (fit cands).filter keep <+: fit (cands.filter keep)

/-- `_cap_batch` as `plan_batch` is given it: the batch, without the overflow. -/
def capFit (cap : ℕ) (gas : Order → ℕ) (budget : ℕ) (sealedCap : Option ℕ) (cands : List Order) :
    List Order :=
  (capBatch cands cap gas budget sealedCap).1

variable {count used sealedCount : ℕ} {orders batch : List Order} {hand : UInt32 → List Order}
  {previous : RoundPlan} {cap budget : ℕ} {gas : Order → ℕ} {sealedCap : Option ℕ} {o : Order}

section Cap

variable {keep : Order → Bool}

theorem hands_filter (hkeep : ∀ o : Order, o.sealed = false → keep o = true)
    (orders : List Order) : hands (orders.filter keep) = hands orders := by
  funext account
  rw [hands, hands, List.filter_filter]
  congr 1
  refine List.filter_congr fun o _ ↦ ?_
  cases hsealed : o.sealed with
  | true => rfl
  | false => simp [hkeep o hsealed]

/-- Dealing and taking out sealed orders commute: sealed orders keep their places. -/
theorem deal_filter (hkeep : ∀ o : Order, o.sealed = false → keep o = true) (orders : List Order)
    (hhand : ∀ account, ∀ x ∈ hand account, x.sealed = false) :
    deal (orders.filter keep) hand = (deal orders hand).filter keep := by
  induction orders generalizing hand with
  | nil => rfl
  | cons o orders ih =>
    cases hsealed : o.sealed with
    | true =>
      rw [deal, if_pos hsealed, List.filter_cons, List.filter_cons]
      split_ifs with hkept
      · rw [deal, if_pos hsealed, ih hhand]
      · exact ih hhand
    | false =>
      have hopen : ¬ o.sealed = true := by simp [hsealed]
      rw [List.filter_cons_of_pos (hkeep o hsealed), deal, deal, if_neg hopen, if_neg hopen]
      cases hcards : hand o.account with
      | nil =>
        simp only []
        rw [List.filter_cons_of_pos (hkeep o hsealed), ih hhand]
      | cons x rest =>
        have hx : x.sealed = false := hhand o.account x (by simp [hcards])
        simp only []
        rw [List.filter_cons_of_pos (hkeep x hx), ih]
        intro account y hy
        rw [Function.update_apply] at hy
        split_ifs at hy with haccount
        · exact hhand o.account y (by simp [hcards, hy])
        · exact hhand account y hy

/-- With less used up, the walk over fewer orders stops no earlier. -/
theorem fillBatch_filter_prefix (cap : ℕ) (gas : Order → ℕ) (budget : ℕ) (sealedCap : Option ℕ)
    (orders : List Order) {count' used' sealedCount' : ℕ} (hcount : count' ≤ count)
    (hused : used' ≤ used) (hsealed : sealedCount' ≤ sealedCount) :
    (fillBatch cap gas budget sealedCap orders count used sealedCount).filter keep <+:
      fillBatch cap gas budget sealedCap (orders.filter keep) count' used' sealedCount' := by
  induction orders generalizing count used sealedCount count' used' sealedCount' with
  | nil => exact List.prefix_refl _
  | cons o orders ih =>
    rw [fillBatch, List.filter_cons]
    by_cases hheavy : budget < gas o
    · rw [if_pos hheavy]
      split_ifs
      · rw [fillBatch, if_pos hheavy]
        exact ih hcount hused hsealed
      · exact ih hcount hused hsealed
    rw [if_neg hheavy]
    by_cases hfull : cap ≤ count ∨ budget < used + gas o ∨
        (o.sealed ∧ sealedCap.any fun c ↦ c ≤ sealedCount)
    · rw [if_pos hfull]
      exact List.nil_prefix
    rw [if_neg hfull]
    by_cases hkept : keep o = true
    · have hfits : ¬ (cap ≤ count' ∨ budget < used' + gas o ∨
          (o.sealed ∧ sealedCap.any fun c ↦ c ≤ sealedCount')) := by
        rintro (hcap | hgas | ⟨hhidden, hcap⟩)
        · exact hfull (Or.inl (by omega))
        · exact hfull (Or.inr (Or.inl (by omega)))
        · refine hfull (Or.inr (Or.inr ⟨hhidden, ?_⟩))
          cases sealedCap with
          | none => cases hcap
          | some c =>
            simp only [Option.any_some, decide_eq_true_eq] at hcap ⊢
            omega
      rw [if_pos hkept, fillBatch, if_neg hheavy, if_neg hfits, List.filter_cons_of_pos hkept]
      exact (List.prefix_cons_inj o).mpr (ih (by omega) (by omega) (by omega))
    · rw [if_neg hkept, List.filter_cons_of_neg hkept]
      exact ih (by omega) (by omega) (by omega)

theorem capFit_policy (cap : ℕ) (gas : Order → ℕ) (budget : ℕ) (sealedCap : Option ℕ) :
    Policy (capFit cap gas budget sealedCap) where
  selects cands := capBatch_subperm cands cap gas budget sealedCap
  prefixClosed cands keep hkeep := by
    simp only [capFit, capBatch]
    rw [hands_filter hkeep, deal_filter hkeep]
    · exact fillBatch_filter_prefix _ _ _ _ _ le_rfl le_rfl le_rfl
    · exact fun account x hx ↦ (mem_hands.mp hx).2.1

/-- Taking sealed orders out of the candidates drops no order from the batch but those taken out. -/
theorem capBatch_keeps_batched (orders : List Order) (cap : ℕ) (gas : Order → ℕ) (budget : ℕ)
    (sealedCap : Option ℕ) {removed : Order → Bool}
    (hremoved : ∀ o ∈ orders, removed o = true → o.sealed = true) {o : Order}
    (ho : o ∈ (capBatch orders cap gas budget sealedCap).1) (hkept : removed o = false) :
    o ∈ (capBatch (orders.filter fun o ↦ !removed o) cap gas budget sealedCap).1 := by
  have hkeep : ∀ o : Order, o.sealed = false → (!o.sealed || !removed o) = true := by
    intro o hopen
    simp [hopen]
  have hfilter : (orders.filter fun o ↦ !removed o) =
      orders.filter fun o ↦ !o.sealed || !removed o := by
    refine List.filter_congr fun o ho ↦ ?_
    cases hgone : removed o with
    | true => simp [hremoved o ho hgone]
    | false => simp
  have hprefix := (capFit_policy cap gas budget sealedCap).prefixClosed orders hkeep
  rw [hfilter]
  exact hprefix.subset (List.mem_filter.mpr ⟨ho, by simp [hkept]⟩)

/-- Three sealed orders and a public one, of which two sealed ones fit. -/
def cappedQueue : List Order :=
  [{ ref := 1, account := 1, oid := 1, side := .buy, price := 5, qty := 2, sealed := true },
    { ref := 2, account := 2, oid := 2, side := .buy, price := 5, qty := 2, sealed := true },
    { ref := 3, account := 3, oid := 3, side := .sell, price := 5, qty := 2, sealed := true },
    { ref := 4, account := 4, oid := 4, side := .sell, price := 5, qty := 2 }]

theorem capBatch_keeps_batched_cappedQueue :
    (capBatch cappedQueue 3 (fun _ ↦ 1) 9 (some 2)).1.map Order.oid = [1, 2] ∧
      cappedQueue[1] ∈ (capBatch (cappedQueue.filter fun o ↦ !decide (o.oid = 1)) 3 (fun _ ↦ 1) 9
        (some 2)).1 := by
  have hbatch : cappedQueue[1] ∈ (capBatch cappedQueue 3 (fun _ ↦ 1) 9 (some 2)).1 := by
    decide +kernel
  refine ⟨by decide +kernel, ?_⟩
  exact capBatch_keeps_batched cappedQueue 3 (fun _ ↦ 1) 9 (some 2) (by decide +kernel) hbatch
    (by decide +kernel)

end Cap

/-! ### The passes -/

/-- The orders that compete for the batch while `crossing` are the sealed ones that may join. -/
def candidates (pending crossing : List Order) : List Order :=
  pending.filter fun o ↦ !o.sealed ∨ o ∈ crossing

/-- The plan of one pass. -/
def passPlan (pending resting : List Order) (fit : List Order → List Order) (now : Time)
    (crossing : List Order) : RoundPlan :=
  planRound (fit (candidates pending crossing)) resting now fun _ ↦ true

/-- Sealed orders of the batch whose counterparties were left over the cap. -/
def RoundPlan.stuck (p : RoundPlan) : List Order := p.carry ++ p.expired

/-- The batches of the passes `refill` makes. -/
def refillBatches (pending resting : List Order) (fit : List Order → List Order) (now : Time) :
    ℕ → List Order → RoundPlan → List (List Order)
  | 0, _, _ => []
  | passes + 1, crossing, previous =>
    let crossing := if passes = 0 then previous.reveal else crossing
    let plan := passPlan pending resting fit now crossing
    fit (candidates pending crossing) ::
      if plan.stuck = [] then []
      else
        refillBatches pending resting fit now passes (crossing.filter fun o ↦ o ∉ plan.stuck) plan

/-- The batches of the passes `planBatch` makes. -/
def planBatches (pending resting : List Order) (fit : List Order → List Order) (now : Time)
    (ready : Order → Bool) : List (List Order) :=
  let full := planRound pending resting now ready
  refillBatches pending resting fit now (fitPasses + 1) full.reveal full

/-- What one pass keeps of another. -/
def RoundPlan.Grows (p p' : RoundPlan) : Prop :=
  p.reveal.Sublist p'.reveal ∧ p.publicOrders.Sublist p'.publicOrders

instance : Trans RoundPlan.Grows RoundPlan.Grows RoundPlan.Grows where
  trans h h' := ⟨h.1.trans h'.1, h.2.trans h'.2⟩

theorem sublist_filter_of_forall {part : List Order} {p : Order → Bool} (h : part.Sublist orders)
    (hp : ∀ o ∈ part, p o = true) : part.Sublist (orders.filter p) := by
  have hpart := h.filter p
  rwa [List.filter_eq_self.mpr hp] at hpart

section Passes

variable {pending resting : List Order} {fit : List Order → List Order} {now : Time}
  {ready : Order → Bool} {start crossing : List Order}

/-- `refill` with the plan of a pass named. -/
theorem refill_succ (passes : ℕ) (crossing carry expired : List Order) (previous : RoundPlan) :
    refill pending resting fit now (passes + 1) crossing carry expired previous =
      let competing := if passes = 0 then previous.reveal else crossing
      let plan := passPlan pending resting fit now competing
      if plan.stuck = [] then (plan, carry, expired)
      else
        refill pending resting fit now passes (competing.filter fun o ↦ o ∉ plan.stuck)
          (carry ++ plan.carry) (expired ++ plan.expired) plan := rfl

theorem getLast?_cons_refillBatches (batch : List Order) (passes : ℕ) (crossing : List Order)
    (previous : RoundPlan) :
    (batch :: refillBatches pending resting fit now (passes + 1) crossing previous).getLast? =
      (refillBatches pending resting fit now (passes + 1) crossing previous).getLast? := by
  rw [refillBatches, List.getLast?_cons_cons]

variable (pending resting fit now) in
/-- `refill` ends with the plan of the last of these batches. -/
theorem refill_last (passes : ℕ) (crossing carry expired : List Order) (previous : RoundPlan) :
    ∃ batch, (refillBatches pending resting fit now (passes + 1) crossing previous).getLast? =
        some batch ∧
      (refill pending resting fit now (passes + 1) crossing carry expired previous).1 =
        planRound batch resting now fun _ ↦ true := by
  induction passes generalizing crossing carry expired previous with
  | zero =>
    rw [refillBatches, refill_succ]
    simp only [if_true, refillBatches, refill, ite_self]
    exact ⟨_, rfl, by split_ifs <;> rfl⟩
  | succ passes ih =>
    rw [refillBatches, refill_succ]
    simp only [Nat.succ_ne_zero, if_false]
    split_ifs
    · exact ⟨_, rfl, rfl⟩
    · obtain ⟨batch, hlast, hplan⟩ := ih _ _ _ _
      refine ⟨batch, ?_, hplan⟩
      rw [getLast?_cons_refillBatches, hlast]

variable (pending resting fit now ready) in
/-- The returned reveals and public orders are those of the last pass. -/
theorem planBatch_last :
    ∃ batch, (planBatches pending resting fit now ready).getLast? = some batch ∧
      (planBatch pending resting fit now ready).reveal =
        (planRound batch resting now fun _ ↦ true).reveal ∧
      (planBatch pending resting fit now ready).publicOrders =
        (planRound batch resting now fun _ ↦ true).publicOrders := by
  obtain ⟨batch, hlast, hplan⟩ := refill_last pending resting fit now fitPasses
    (planRound pending resting now ready).reveal (planRound pending resting now ready).carry
    (planRound pending resting now ready).expired (planRound pending resting now ready)
  refine ⟨batch, hlast, ?_, ?_⟩
  · rw [← hplan]
    rfl
  · rw [← hplan]
    rfl

/-- Every batch is what the policy makes of the candidates of some pass. -/
theorem exists_candidates {passes : ℕ}
    (h : batch ∈ refillBatches pending resting fit now passes crossing previous) :
    ∃ crossing', batch = fit (candidates pending crossing') := by
  induction passes generalizing crossing previous with
  | zero => cases h
  | succ passes ih =>
    rw [refillBatches] at h
    rcases List.mem_cons.mp h with hfirst | hrest
    · exact ⟨_, hfirst⟩
    · generalize (if passes = 0 then previous.reveal else crossing) = competing at hrest
      split_ifs at hrest
      · cases hrest
      · exact ih hrest

theorem candidates_filter (hsub : crossing ⊆ start) :
    candidates pending crossing =
      (candidates pending start).filter fun o ↦ !o.sealed ∨ o ∈ crossing := by
  rw [candidates, candidates, List.filter_filter]
  refine List.filter_congr fun o _ ↦ ?_
  by_cases ho : o ∈ crossing
  · simp [ho, hsub ho]
  · cases hsealed : o.sealed <;> simp [ho]

/-- The plan of a pass reveals sealed orders that compete. -/
theorem Policy.reveal_subset (h : Policy fit) (crossing : List Order) :
    (passPlan pending resting fit now crossing).reveal ⊆ crossing :=
  fun _ ho ↦ mem_crossing_of_batch h.selects (mem_reveal.mp ho).1 (mem_reveal.mp ho).2.1

/-- A pass in which fewer sealed orders compete, but all those the pass before revealed, keeps its
reveals and its public orders. -/
theorem Policy.grows (h : Policy fit) (hsub : crossing ⊆ start)
    (hkept : (passPlan pending resting fit now start).reveal ⊆ crossing) :
    (passPlan pending resting fit now start).Grows
      (passPlan pending resting fit now crossing) := by
  have hprefix := h.prefixClosed (candidates pending start)
    (show ∀ o : Order, o.sealed = false → decide (!o.sealed ∨ o ∈ crossing) = true by
      simp +contextual)
  rw [← candidates_filter hsub] at hprefix
  -- what stays among the candidates stays in the batch
  have hsurvives : ∀ {part : List Order}, part.Sublist (fit (candidates pending start)) →
      (∀ o ∈ part, o.sealed = false ∨ o ∈ crossing) →
        part.Sublist (fit (candidates pending crossing)) := by
    intro part hpart hstays
    refine List.Sublist.trans (sublist_filter_of_forall hpart fun o ho ↦ ?_) hprefix.sublist
    simpa using hstays o ho
  have hopen : ∀ o ∈ (passPlan pending resting fit now start).publicOrders, (!o.sealed) = true :=
    fun o ho ↦ by simp [(mem_public.mp ho).2]
  have hpublic : (passPlan pending resting fit now start).publicOrders.Sublist
      (passPlan pending resting fit now crossing).publicOrders := by
    refine sublist_filter_of_forall (hsurvives List.filter_sublist fun o ho ↦ Or.inl ?_) hopen
    exact (mem_public.mp ho).2
  have hreveal : (passPlan pending resting fit now start).reveal.Sublist
      (fit (candidates pending crossing)) :=
    hsurvives (List.filter_sublist.trans (List.filter_sublist.trans List.filter_sublist))
      fun o ho ↦ Or.inr (hkept ho)
  have hready : (passPlan pending resting fit now start).reveal.Sublist
      (readyOrders (fit (candidates pending crossing)) fun _ ↦ true) :=
    sublist_filter_of_forall (sublist_filter_of_forall hreveal fun o ho ↦ (mem_reveal.mp ho).2.1)
      fun _ _ ↦ rfl
  refine ⟨sublist_filter_of_forall hready fun o ho ↦ ?_, hpublic⟩
  -- the counterparties were revealed or public or on the book, and are there as before
  obtain ⟨c, hc, hcross⟩ := exists_crosses_of_reveal ho
  refine planCrosses_iff.mpr ⟨c, ?_, hcross⟩
  simp only [List.mem_append] at hc ⊢
  exact hc.imp (Or.imp_right fun hc ↦ hpublic.subset hc) fun hc ↦ hready.subset hc

/-- What `crossing` is between two passes: at most the orders that competed, and all those
revealed. -/
structure Narrowed (pending resting : List Order) (fit : List Order → List Order) (now : Time)
    (start crossing : List Order) : Prop where
  subset : crossing ⊆ start
  revealed : (passPlan pending resting fit now start).reveal ⊆ crossing

variable (pending resting now) in
/-- Taking out the stuck orders keeps those revealed. -/
theorem Policy.narrowed_filter (h : Policy fit) (competing : List Order) :
    Narrowed pending resting fit now competing
      (competing.filter fun o ↦ o ∉ (passPlan pending resting fit now competing).stuck) where
  subset := List.filter_subset_self _
  revealed o ho := by
    refine List.mem_filter.mpr ⟨h.reveal_subset competing ho, ?_⟩
    rw [decide_eq_true_eq]
    exact notMem_stuck ho

/-- The last pass drops only orders that were not revealed. -/
theorem Narrowed.competing (h : Policy fit)
    (hcrossing : Narrowed pending resting fit now start crossing) (passes : ℕ) :
    Narrowed pending resting fit now start
      (if passes = 0 then (passPlan pending resting fit now start).reveal else crossing) := by
  split_ifs
  · exact ⟨h.reveal_subset start, List.Subset.refl _⟩
  · exact hcrossing

/-- After a first batch, every pass keeps what the pass before it had. -/
theorem Policy.chain (h : Policy fit) (passes : ℕ)
    (hcrossing : Narrowed pending resting fit now start crossing) :
    (fit (candidates pending start) :: refillBatches pending resting fit now passes crossing
      (passPlan pending resting fit now start)).IsChain fun batch batch' ↦
        (planRound batch resting now fun _ ↦ true).Grows
          (planRound batch' resting now fun _ ↦ true) := by
  induction passes generalizing start crossing with
  | zero => exact List.IsChain.singleton _
  | succ passes ih =>
    have hnow := hcrossing.competing h passes
    rw [refillBatches]
    generalize (if passes = 0 then (passPlan pending resting fit now start).reveal else crossing) =
      competing at hnow ⊢
    refine List.IsChain.cons_cons (h.grows hnow.subset hnow.revealed) ?_
    split_ifs
    · exact List.IsChain.singleton _
    · exact ih (h.narrowed_filter pending resting now competing)

/-- A batch whose sealed orders were all revealed before has none stuck. -/
theorem Policy.stuck_eq_nil (h : Policy fit)
    (hcrossing : Narrowed pending resting fit now start
      (passPlan pending resting fit now start).reveal) :
    (passPlan pending resting fit now (passPlan pending resting fit now start).reveal).stuck =
      [] := by
  refine List.eq_nil_iff_forall_not_mem.mpr fun o ho ↦ ?_
  have hgrows := h.grows hcrossing.subset hcrossing.revealed
  refine notMem_stuck (hgrows.1.subset ?_) ho
  rcases List.mem_append.mp ho with hcarry | hexpired
  · exact mem_crossing_of_batch h.selects (mem_carry.mp hcarry).1 (mem_carry.mp hcarry).2.1
  · exact mem_crossing_of_batch h.selects (mem_expired.mp hexpired).1 (mem_expired.mp hexpired).2.1

/-- After a first batch, the last pass leaves nothing stuck. -/
theorem Policy.last_unstuck (h : Policy fit) (passes : ℕ)
    (hcrossing : Narrowed pending resting fit now start crossing) {batch : List Order}
    (hlast : (refillBatches pending resting fit now (passes + 1) crossing
      (passPlan pending resting fit now start)).getLast? = some batch) :
    (planRound batch resting now fun _ ↦ true).stuck = [] := by
  induction passes generalizing start crossing with
  | zero =>
    have hstuck := h.stuck_eq_nil (hcrossing.competing h 0)
    rw [refillBatches] at hlast
    simp only [if_true, refillBatches, ite_self, List.getLast?_singleton,
      Option.some.injEq] at hlast
    rw [← hlast]
    exact hstuck
  | succ passes ih =>
    rw [refillBatches] at hlast
    simp only [Nat.succ_ne_zero, if_false] at hlast
    split_ifs at hlast with hstuck
    · rw [List.getLast?_singleton, Option.some.injEq] at hlast
      rw [← hlast]
      exact hstuck
    · rw [getLast?_cons_refillBatches] at hlast
      exact ih (h.narrowed_filter pending resting now crossing) hlast

variable (pending resting fit now ready) in
theorem planBatches_eq :
    planBatches pending resting fit now ready =
      let crossing := (planRound pending resting now ready).reveal
      let plan := passPlan pending resting fit now crossing
      fit (candidates pending crossing) ::
        if plan.stuck = [] then []
        else
          refillBatches pending resting fit now fitPasses
            (crossing.filter fun o ↦ o ∉ plan.stuck) plan := rfl

/-- A batch with nothing stuck is what its plan reveals and its public orders. -/
theorem perm_of_stuck_eq_nil (h : (planRound batch resting now fun _ ↦ true).stuck = []) :
    batch.Perm ((planRound batch resting now fun _ ↦ true).reveal ++
      (planRound batch resting now fun _ ↦ true).publicOrders) := by
  have hreveal : (planRound batch resting now fun _ ↦ true).reveal =
      batch.filter fun o ↦ o.sealed := by
    rw [reveal_eq_filter, readyOrders, List.filter_true]
    refine List.filter_eq_self.mpr fun o ho ↦ ?_
    obtain ⟨hmem, hsealed⟩ := List.mem_filter.mp ho
    by_contra hcross
    have hcross : planCrosses batch resting (fun _ ↦ true) o = false := by simpa using hcross
    refine List.eq_nil_iff_forall_not_mem.mp h o (List.mem_append.mpr ?_)
    cases hlapsed : o.lapsed now with
    | false => exact Or.inl (mem_carry.mpr ⟨hmem, hsealed, rfl, hcross, hlapsed⟩)
    | true => exact Or.inr (mem_expired.mpr ⟨hmem, hsealed, hlapsed, fun _ ↦ hcross⟩)
  rw [hreveal]
  exact (List.filter_append_perm _ _).symm

variable (pending resting now ready) in
/-- The passes of a policy grow, and the last leaves nothing stuck. -/
theorem Policy.passes (h : Policy fit) :
    ((planBatches pending resting fit now ready).map fun batch ↦
        planRound batch resting now fun _ ↦ true).Pairwise RoundPlan.Grows ∧
      ∀ batch ∈ (planBatches pending resting fit now ready).getLast?,
        (planRound batch resting now fun _ ↦ true).stuck = [] := by
  have hnarrowed := h.narrowed_filter pending resting now
    (planRound pending resting now ready).reveal
  rw [planBatches_eq]
  simp only []
  split_ifs with hstuck
  · refine ⟨List.pairwise_singleton _ _, fun batch hbatch ↦ ?_⟩
    rw [← Option.some.inj hbatch]
    exact hstuck
  · refine ⟨(List.isChain_map _ |>.mpr (h.chain fitPasses hnarrowed)).pairwise,
      fun batch hbatch ↦ ?_⟩
    rw [Option.mem_def, fitPasses, getLast?_cons_refillBatches] at hbatch
    exact h.last_unstuck 3 hnarrowed hbatch

end Passes

/-- Refilling converges. With the server's capacity policy, whatever the caps and gas costs, every
pass reveals what the passes before it revealed and batches their public orders; the last pass run
leaves nothing stuck, and the batch the policy chose in it is the returned reveals and public
orders. -/
theorem planBatch_converges (pending resting : List Order) (now : Time) (ready : Order → Bool)
    (cap : ℕ) (gas : Order → ℕ) (budget : ℕ) (sealedCap : Option ℕ) :
    let batches := planBatches pending resting (capFit cap gas budget sealedCap) now ready
    let returned := planBatch pending resting (capFit cap gas budget sealedCap) now ready
    (batches.map fun batch ↦ planRound batch resting now fun _ ↦ true).Pairwise RoundPlan.Grows ∧
      ∃ batch, batches.getLast? = some batch ∧
        (planRound batch resting now fun _ ↦ true).carry = [] ∧
        (planRound batch resting now fun _ ↦ true).expired = [] ∧
        returned.reveal = (planRound batch resting now fun _ ↦ true).reveal ∧
        returned.publicOrders = (planRound batch resting now fun _ ↦ true).publicOrders ∧
        batch.Perm (returned.reveal ++ returned.publicOrders) := by
  obtain ⟨hgrows, hunstuck⟩ :=
    (capFit_policy cap gas budget sealedCap).passes pending resting now ready
  obtain ⟨batch, hlast, hreveal, hpublic⟩ :=
    planBatch_last pending resting (capFit cap gas budget sealedCap) now ready
  have hstuck := hunstuck batch hlast
  obtain ⟨hcarry, hexpired⟩ := List.append_eq_nil_iff.mp hstuck
  refine ⟨hgrows, batch, hlast, hcarry, hexpired, hreveal, hpublic, ?_⟩
  rw [hreveal, hpublic]
  exact perm_of_stuck_eq_nil hstuck

/-! ### Orders that wait whatever the batch is -/

/-- Sealed orders a plan of the whole queue holds out: hidden, expired or not committed yet. -/
def RoundPlan.withheld (p : RoundPlan) : List Order := p.carry ++ p.expired ++ p.deferred

section Withheld

variable {pending pending' resting : List Order} {fit : List Order → List Order} {now : Time}
  {ready : Order → Bool} {start crossing : List Order} {o : Order}

theorem mem_withheld : o ∈ (planRound pending resting now ready).withheld ↔
    o ∈ pending ∧ o.sealed = true ∧ o ∉ (planRound pending resting now ready).reveal := by
  simp only [RoundPlan.withheld, List.mem_append, mem_carry, mem_expired, mem_deferred, mem_reveal]
  by_cases hmem : o ∈ pending ∧ o.sealed = true
  · obtain ⟨hmem, hsealed⟩ := hmem
    cases ready o <;> cases planCrosses pending resting ready o <;> cases o.lapsed now <;>
      simp [hmem, hsealed]
  · tauto

variable (pending resting now ready) in
/-- The others are the candidates of the first pass. -/
theorem candidates_reveal :
    candidates pending (planRound pending resting now ready).reveal =
      pending.filter fun o ↦ o ∉ (planRound pending resting now ready).withheld := by
  refine List.filter_congr fun o ho ↦ ?_
  rw [decide_eq_decide, mem_withheld]
  cases o.sealed <;> simp [ho]

variable (pending resting now ready) in
theorem filter_candidates_reveal :
    (candidates pending (planRound pending resting now ready).reveal).filter (fun o ↦ o.sealed) =
      (planRound pending resting now ready).reveal := by
  have hreveal : (planRound pending resting now ready).reveal = pending.filter fun o ↦
      planCrosses pending resting ready o && ready o && o.sealed := by
    rw [reveal_eq_filter, readyOrders, List.filter_filter, List.filter_filter]
  rw [candidates, List.filter_filter]
  refine (List.filter_congr fun o ho ↦ ?_).trans hreveal.symm
  rw [Bool.eq_iff_iff]
  simp only [Bool.and_eq_true, decide_eq_true_eq, mem_reveal]
  cases o.sealed <;> simp [ho, and_comm]

/-- The passes see the queue through the candidates of the first. -/
theorem Policy.refillBatches_congr (h : Policy fit)
    (hsame : candidates pending start = candidates pending' start) (passes : ℕ)
    (hcrossing : crossing ⊆ start) (hprevious : previous.reveal ⊆ start) :
    refillBatches pending resting fit now passes crossing previous =
      refillBatches pending' resting fit now passes crossing previous := by
  induction passes generalizing crossing previous with
  | zero => rfl
  | succ passes ih =>
    have hnow : (if passes = 0 then previous.reveal else crossing) ⊆ start := by
      split_ifs
      · exact hprevious
      · exact hcrossing
    rw [refillBatches, refillBatches]
    generalize (if passes = 0 then previous.reveal else crossing) = competing at hnow ⊢
    have hcands : candidates pending competing = candidates pending' competing := by
      rw [candidates_filter hnow, hsame, ← candidates_filter hnow]
    have hplan : passPlan pending resting fit now competing =
        passPlan pending' resting fit now competing := by
      rw [passPlan, passPlan, hcands]
    rw [hcands, hplan, ih (List.Subset.trans (List.filter_subset_self _) hnow)
      (List.Subset.trans (h.reveal_subset competing) hnow)]

/-- Two queues whose first passes have the same candidates give the same batch. -/
theorem Policy.planBatch_congr (h : Policy fit)
    (hsame : candidates pending (planRound pending resting now ready).reveal =
      candidates pending' (planRound pending' resting now ready).reveal) :
    (planBatch pending' resting fit now ready).reveal =
        (planBatch pending resting fit now ready).reveal ∧
      (planBatch pending' resting fit now ready).publicOrders =
        (planBatch pending resting fit now ready).publicOrders := by
  have hreveal : (planRound pending resting now ready).reveal =
      (planRound pending' resting now ready).reveal := by
    rw [← filter_candidates_reveal, hsame, filter_candidates_reveal]
  have hbatches : planBatches pending resting fit now ready =
      planBatches pending' resting fit now ready := by
    rw [← hreveal] at hsame
    have hplan : passPlan pending resting fit now (planRound pending resting now ready).reveal =
        passPlan pending' resting fit now (planRound pending resting now ready).reveal := by
      rw [passPlan, passPlan, hsame]
    rw [planBatches_eq, planBatches_eq, ← hreveal]
    simp only [← hsame, ← hplan]
    rw [h.refillBatches_congr hsame fitPasses (List.filter_subset_self _) (h.reveal_subset _)]
  obtain ⟨batch, hlast, hr, hp⟩ := planBatch_last pending resting fit now ready
  obtain ⟨batch', hlast', hr', hp'⟩ := planBatch_last pending' resting fit now ready
  rw [hbatches, hlast', Option.some.injEq] at hlast
  rw [hr, hp, hr', hp', hlast]
  exact ⟨rfl, rfl⟩

/-- A queue that has every order another does not hold out reveals what the other reveals: the
counterparties are not held out, crossing being mutual. -/
theorem reveal_subset_of_kept
    (hkept : ∀ o ∈ pending, o ∉ (planRound pending resting now ready).withheld → o ∈ pending') :
    (planRound pending resting now ready).reveal ⊆
      (planRound pending' resting now ready).reveal := by
  have hin : ∀ o ∈ (planRound pending resting now ready).reveal, o ∈ pending' := fun o ho ↦
    hkept o (mem_reveal.mp ho).1 fun hwithheld ↦ (mem_withheld.mp hwithheld).2.2 ho
  intro o ho
  obtain ⟨-, hsealed, hready, -⟩ := mem_reveal.mp ho
  refine mem_reveal.mpr ⟨hin o ho, hsealed, hready, ?_⟩
  obtain ⟨c, hc, hcross⟩ := exists_crosses_of_reveal ho
  refine planCrosses_iff.mpr ⟨c, ?_, hcross⟩
  rw [List.append_assoc, List.mem_append, List.mem_append] at hc
  rcases hc with hbook | hpublic | hhidden
  · exact List.mem_append_left _ (List.mem_append_left _ hbook)
  · obtain ⟨hmem, hopen⟩ := mem_public.mp hpublic
    have hin' : c ∈ pending' := hkept c hmem fun hwithheld ↦ by
      simp [(mem_withheld.mp hwithheld).2.1] at hopen
    exact List.mem_append_left _ (List.mem_append_right _
      (List.mem_filter.mpr ⟨hin', by simp [hopen]⟩))
  · obtain ⟨-, hcsealed, hcready, -⟩ := mem_reveal.mp hhidden
    exact List.mem_append_right _ (List.mem_filter.mpr
      ⟨List.mem_filter.mpr ⟨hin c hhidden, hcsealed⟩, hcready⟩)

/-- A smaller queue reveals no more. -/
theorem reveal_subset_of_sublist (hsub : pending'.Sublist pending) :
    (planRound pending' resting now ready).reveal ⊆
      (planRound pending resting now ready).reveal := by
  intro o ho
  obtain ⟨hmem, hsealed, hready, hcrosses⟩ := mem_reveal.mp ho
  obtain ⟨c, hc, hcross⟩ := planCrosses_iff.mp hcrosses
  refine mem_reveal.mpr ⟨hsub.subset hmem, hsealed, hready, planCrosses_iff.mpr ⟨c, ?_, hcross⟩⟩
  simp only [List.mem_append] at hc ⊢
  refine hc.imp (Or.imp_right fun hpublic ↦ ?_) fun hhidden ↦ ?_
  · exact (hsub.filter _).subset hpublic
  · exact ((hsub.filter _).filter _).subset hhidden

/-- Deleting withheld orders leaves the candidates. -/
theorem candidates_of_deleted (hsub : pending'.Sublist pending)
    (hkept : ∀ o ∈ pending, o ∉ (planRound pending resting now ready).withheld →
      pending'.count o = pending.count o) :
    candidates pending (planRound pending resting now ready).reveal =
      candidates pending' (planRound pending' resting now ready).reveal := by
  have hreveal : ∀ o, o ∈ (planRound pending resting now ready).reveal ↔
      o ∈ (planRound pending' resting now ready).reveal := fun o ↦ by
    refine ⟨fun ho ↦ reveal_subset_of_kept (fun x hx hfree ↦ ?_) ho, fun ho ↦
      reveal_subset_of_sublist hsub ho⟩
    rw [← List.count_pos_iff, hkept x hx hfree]
    exact List.count_pos_iff.mpr hx
  have hsame : candidates pending' (planRound pending' resting now ready).reveal =
      candidates pending' (planRound pending resting now ready).reveal := by
    simp only [candidates, hreveal]
  have hfree : candidates pending' (planRound pending resting now ready).reveal =
      pending'.filter fun o ↦ o ∉ (planRound pending resting now ready).withheld := by
    refine List.filter_congr fun o ho ↦ ?_
    rw [decide_eq_decide, mem_withheld]
    cases o.sealed <;> simp [hsub.subset ho]
  have hperm : (pending.filter fun o ↦ o ∉ (planRound pending resting now ready).withheld).Perm
      (pending'.filter fun o ↦ o ∉ (planRound pending resting now ready).withheld) := by
    refine List.perm_iff_count.mpr fun x ↦ ?_
    by_cases hx : x ∈ pending ∧ x ∉ (planRound pending resting now ready).withheld
    · rw [List.count_filter (by simp [hx.2]), List.count_filter (by simp [hx.2]),
        hkept x hx.1 hx.2]
    · rw [List.count_eq_zero_of_not_mem, List.count_eq_zero_of_not_mem]
      · rw [List.mem_filter]
        exact fun h ↦ hx ⟨hsub.subset h.1, by simpa using h.2⟩
      · rw [List.mem_filter]
        exact fun h ↦ hx ⟨h.1, by simpa using h.2⟩
  rw [hsame, hfree, candidates_reveal]
  exact ((hsub.filter _).eq_of_length hperm.length_eq.symm).symm

section Changed

variable {W W' : List Order}

theorem kept_of_forall₂ (h : List.Forall₂ (fun o o' ↦ o = o' ∨ o ∈ W ∧ o' ∈ W') pending pending') :
    ∀ o ∈ pending, o ∉ W → o ∈ pending' := by
  induction h with
  | nil => simp
  | cons hfirst _ ih =>
    intro o ho hfree
    rcases List.mem_cons.mp ho with rfl | hrest
    · rcases hfirst with rfl | ⟨hwithheld, -⟩
      · exact List.mem_cons_self
      · exact absurd hwithheld hfree
    · exact List.mem_cons_of_mem _ (ih o hrest hfree)

/-- Lists that differ only inside `W` and `W'` agree outside, when an order of both is in both or in
neither. -/
theorem filter_eq_of_forall₂
    (h : List.Forall₂ (fun o o' ↦ o = o' ∨ o ∈ W ∧ o' ∈ W') pending pending')
    (hagree : ∀ o ∈ pending, o ∈ pending' → (o ∈ W ↔ o ∈ W')) :
    (pending.filter fun o ↦ o ∉ W) = pending'.filter fun o ↦ o ∉ W' := by
  induction h with
  | nil => rfl
  | cons hfirst _ ih =>
    have hrest := ih fun o ho ho' ↦
      hagree o (List.mem_cons_of_mem _ ho) (List.mem_cons_of_mem _ ho')
    rw [List.filter_cons, List.filter_cons, hrest]
    rcases hfirst with rfl | ⟨hwithheld, hwithheld'⟩
    · simp only [hagree _ List.mem_cons_self List.mem_cons_self]
    · simp [hwithheld, hwithheld']

end Changed

/-- Changing withheld orders into others that are withheld leaves the candidates. -/
theorem candidates_of_changed
    (hchanged : List.Forall₂ (fun o o' ↦ o = o' ∨
      o ∈ (planRound pending resting now ready).withheld ∧
        o' ∈ (planRound pending' resting now ready).withheld) pending pending') :
    candidates pending (planRound pending resting now ready).reveal =
      candidates pending' (planRound pending' resting now ready).reveal := by
  have hback : List.Forall₂ (fun o' o ↦ o' = o ∨
      o' ∈ (planRound pending' resting now ready).withheld ∧
        o ∈ (planRound pending resting now ready).withheld) pending' pending :=
    (List.Forall₂.flip hchanged).imp fun _ _ h ↦ h.imp Eq.symm And.symm
  have hreveal := @reveal_subset_of_kept _ _ resting now ready (kept_of_forall₂ hchanged)
  have hreveal' := @reveal_subset_of_kept _ _ resting now ready (kept_of_forall₂ hback)
  rw [candidates_reveal, candidates_reveal]
  refine filter_eq_of_forall₂ hchanged fun o ho ho' ↦ ?_
  rw [mem_withheld, mem_withheld]
  exact ⟨fun h ↦ ⟨ho', h.2.1, fun hr ↦ h.2.2 (hreveal' hr)⟩,
    fun h ↦ ⟨ho, h.2.1, fun hr ↦ h.2.2 (hreveal hr)⟩⟩

end Withheld

/-- Withheld orders take no place and leak nothing. With the server's capacity policy, deleting from
the queue any of the sealed orders that a plan of the whole queue holds out leaves the batch as it
is, and so does changing their terms in any way in which they are still held out. -/
theorem planBatch_withheld_neutral (pending resting : List Order) (now : Time)
    (ready : Order → Bool) (cap : ℕ) (gas : Order → ℕ) (budget : ℕ) (sealedCap : Option ℕ) :
    let plan := fun queue ↦ planBatch queue resting (capFit cap gas budget sealedCap) now ready
    let withheld := fun queue ↦ (planRound queue resting now ready).withheld
    (∀ pending' : List Order, pending'.Sublist pending →
        (∀ o ∈ pending, o ∉ withheld pending → pending'.count o = pending.count o) →
          (plan pending').reveal = (plan pending).reveal ∧
            (plan pending').publicOrders = (plan pending).publicOrders) ∧
      ∀ pending' : List Order, List.Forall₂
        (fun o o' ↦ o = o' ∨ o ∈ withheld pending ∧ o' ∈ withheld pending') pending pending' →
          (plan pending').reveal = (plan pending).reveal ∧
            (plan pending').publicOrders = (plan pending).publicOrders := by
  have hpolicy := capFit_policy cap gas budget sealedCap
  constructor
  · intro pending' hsub hkept
    exact hpolicy.planBatch_congr (candidates_of_deleted hsub hkept)
  · intro pending' hchanged
    exact hpolicy.planBatch_congr (candidates_of_changed hchanged)

/-- A sealed buy and a public sell that cross, with sealed orders in between that cross nothing, at
the given price. -/
def waitingQueue (price : ℕ) : List Order :=
  [{ ref := 1, account := 1, oid := 1, side := .buy, price := 5, qty := 2, sealed := true },
    { ref := 2, account := 2, oid := 2, side := .buy, price := price, qty := 7, sealed := true },
    { ref := 3, account := 3, oid := 3, side := .sell, price := 5, qty := 1 }]

/-- Without the order in between, and with it at another price, the same order is revealed. -/
theorem planBatch_withheld_neutral_waitingQueue :
    ((planBatch (waitingQueue 3) [] (capFit 2 (fun _ ↦ 0) 0 none) 0 fun _ ↦ true).reveal.map
        Order.oid = [1]) ∧
      (planBatch ((waitingQueue 3).eraseIdx 1) [] (capFit 2 (fun _ ↦ 0) 0 none) 0
        fun _ ↦ true).reveal =
        (planBatch (waitingQueue 3) [] (capFit 2 (fun _ ↦ 0) 0 none) 0 fun _ ↦ true).reveal ∧
      (planBatch (waitingQueue 4) [] (capFit 2 (fun _ ↦ 0) 0 none) 0 fun _ ↦ true).reveal =
        (planBatch (waitingQueue 3) [] (capFit 2 (fun _ ↦ 0) 0 none) 0 fun _ ↦ true).reveal := by
  obtain ⟨hdeleted, hchanged⟩ :=
    planBatch_withheld_neutral (waitingQueue 3) [] 0 (fun _ ↦ true) 2 (fun _ ↦ 0) 0 none
  refine ⟨by decide +kernel,
    (hdeleted _ (List.eraseIdx_sublist _ _) (by decide +kernel)).1, (hchanged _ ?_).1⟩
  refine .cons (Or.inl rfl) (.cons (Or.inr ?_) (.cons (Or.inl rfl) .nil))
  exact ⟨by decide +kernel, by decide +kernel⟩

/-! ### Older orders go first -/

/-- Dealing puts each account's public orders in the order of their seqs. -/
theorem Dealt.ascending (h : Dealt orders hand)
    (hhand : ∀ account, (hand account).Pairwise fun a b ↦ a.seq ≤ b.seq) :
    (deal orders hand).Pairwise fun a b ↦
      a.sealed = false → b.sealed = false → a.account = b.account → a.seq ≤ b.seq := by
  induction orders generalizing hand with
  | nil => exact List.Pairwise.nil
  | cons o orders ih =>
    rw [deal]
    cases hsealed : o.sealed with
    | true =>
      rw [if_pos rfl]
      refine List.pairwise_cons.mpr ⟨fun b _ hopen ↦ ?_, ih (h.of_sealed hsealed) hhand⟩
      rw [hsealed] at hopen
      cases hopen
    | false =>
      obtain ⟨x, rest, hcards, hx, hrest⟩ := h.draw hsealed
      have hsorted := hhand o.account
      rw [hcards, List.pairwise_cons] at hsorted
      rw [if_neg (by simp), hcards]
      refine List.pairwise_cons.mpr ⟨fun b hb _ hopen haccount ↦ ?_, ih hrest fun account ↦ ?_⟩
      · -- a public order further on is a card left in the hand
        have hcount := List.count_pos_iff.mpr hb
        rw [hrest.count_deal, List.count_eq_zero_of_not_mem (by simp [hopen]), Nat.zero_add,
          ← haccount, hx, Function.update_self] at hcount
        exact hsorted.1 b (List.count_pos_iff.mp hcount)
      · rw [Function.update_apply]
        split_ifs
        · exact hsorted.2
        · exact hhand account

theorem pairwise_hands (orders : List Order) (account : UInt32) :
    (hands orders account).Pairwise fun a b ↦ a.seq ≤ b.seq := by
  have htotal : Std.Total fun a b : Order ↦ a.seq ≤ b.seq :=
    ⟨fun a b ↦ UInt64.le_total a.seq b.seq⟩
  have htrans : IsTrans Order fun a b ↦ a.seq ≤ b.seq := ⟨fun _ _ _ ↦ UInt64.le_trans⟩
  exact List.pairwise_insertionSort _ _

/-- What stands before a batched order and can ride a round is batched. -/
theorem mem_fillBatch_of_before {R : Order → Order → Prop} (hordered : orders.Pairwise R)
    {o' : Order} (ho : o ∈ fillBatch cap gas budget sealedCap orders count used sealedCount)
    (ho' : o' ∈ orders) (hnot : ¬ R o o') (hgas : gas o' ≤ budget) :
    o' ∈ fillBatch cap gas budget sealedCap orders count used sealedCount := by
  induction orders generalizing count used sealedCount with
  | nil => cases ho
  | cons x orders ih =>
    obtain ⟨hfirst, hordered⟩ := List.pairwise_cons.mp hordered
    rw [fillBatch] at ho ⊢
    by_cases hheavy : budget < gas x
    · rw [if_pos hheavy] at ho ⊢
      rcases List.mem_cons.mp ho' with rfl | hrest
      · omega
      · exact ih hordered ho hrest
    rw [if_neg hheavy] at ho ⊢
    by_cases hfull : cap ≤ count ∨ budget < used + gas x ∨
        (x.sealed ∧ sealedCap.any fun c ↦ c ≤ sealedCount)
    · rw [if_pos hfull] at ho
      cases ho
    rw [if_neg hfull] at ho ⊢
    rcases List.mem_cons.mp ho' with rfl | hrest
    · exact List.mem_cons_self
    rcases List.mem_cons.mp ho with rfl | hlater
    · exact absurd (hfirst o' hrest) hnot
    · exact List.mem_cons_of_mem _ (ih hordered hlater hrest)

theorem gas_le_of_mem_fillBatch
    (ho : o ∈ fillBatch cap gas budget sealedCap orders count used sealedCount) :
    gas o ≤ budget := by
  induction orders generalizing count used sealedCount with
  | nil => cases ho
  | cons x orders ih =>
    rw [fillBatch] at ho
    split at ho
    case isTrue => exact ih ho
    case isFalse hheavy =>
      split at ho
      case isTrue => cases ho
      case isFalse =>
        rcases List.mem_cons.mp ho with rfl | hrest
        · exact Nat.not_lt.mp hheavy
        · exact ih hrest

/-- No order is overtaken by its account's newer one: when all public orders cost the same, a public
order left over has no smaller seq than a batched public order of its account. -/
theorem planBatch_no_overtaking {pending resting : List Order} {now : Time} {ready : Order → Bool}
    {cap : ℕ} {gas : Order → ℕ} {budget : ℕ} {sealedCap : Option ℕ}
    (hgas : ∀ o ∈ pending, ∀ o' ∈ pending, o.sealed = false → o'.sealed = false → gas o = gas o')
    {o o' : Order}
    (ho : o ∈ (planBatch pending resting (capFit cap gas budget sealedCap) now ready).publicOrders)
    (ho' : o' ∈ (planBatch pending resting (capFit cap gas budget sealedCap) now ready).overflow)
    (hopen' : o'.sealed = false) (haccount : o'.account = o.account) : o.seq ≤ o'.seq := by
  obtain ⟨batch, hlast, -, hpublic⟩ :=
    planBatch_last pending resting (capFit cap gas budget sealedCap) now ready
  obtain ⟨crossing, rfl⟩ := exists_candidates (List.mem_of_getLast? hlast)
  set fit := capFit cap gas budget sealedCap with hfit
  have hpolicy : Policy fit := capFit_policy cap gas budget sealedCap
  have hmem : o ∈ fit (candidates pending crossing) ∧ o.sealed = false := by
    rw [hpublic] at ho
    exact mem_public.mp ho
  have hpending' : o' ∈ pending := List.mem_of_mem_filter ho'
  have hout : o' ∉ fit (candidates pending crossing) := by
    intro hbatched
    refine waits_disjoint_leaves hpolicy.selects (List.mem_append_right _ ho')
      (List.mem_append_left _ (List.mem_append_right _ ?_))
    rw [hpublic]
    exact mem_public.mpr ⟨hbatched, hopen'⟩
  have hpending : o ∈ pending :=
    List.mem_of_mem_filter ((hpolicy.selects _).subset hmem.1)
  by_contra hlt
  -- the older order stands before the newer one, costs the same, and is batched with it
  refine hout (mem_fillBatch_of_before
    ((dealt_hands _).ascending (pairwise_hands _)) hmem.1 ?_ (fun hle ↦ ?_) ?_)
  · refine (deal_perm _).mem_iff.mpr (List.mem_filter.mpr ⟨hpending', ?_⟩)
    simp [hopen']
  · exact hlt (hle hmem.2 hopen' haccount.symm)
  · rw [← hgas o hpending o' hpending' hmem.2 hopen']
    exact gas_le_of_mem_fillBatch hmem.1

/-- Account 1 queues seq 9 before seq 4, and one order fits. -/
def overtakingQueue : List Order :=
  [{ ref := 1, account := 1, oid := 1, side := .buy, price := 5, qty := 2, seq := 9 },
    { ref := 2, account := 1, oid := 2, side := .buy, price := 5, qty := 2, seq := 4 }]

theorem planBatch_no_overtaking_overtakingQueue :
    ∃ o ∈ (planBatch overtakingQueue [] (capFit 1 (fun _ ↦ 3) 5 none) 0 fun _ ↦ true).publicOrders,
      ∃ o' ∈ (planBatch overtakingQueue [] (capFit 1 (fun _ ↦ 3) 5 none) 0 fun _ ↦ true).overflow,
        o'.account = o.account ∧ o.oid = 2 ∧ o.seq ≤ o'.seq := by
  have hbatched : overtakingQueue[1] ∈ (planBatch overtakingQueue []
      (capFit 1 (fun _ ↦ 3) 5 none) 0 fun _ ↦ true).publicOrders := by decide +kernel
  have hleft : overtakingQueue[0] ∈ (planBatch overtakingQueue []
      (capFit 1 (fun _ ↦ 3) 5 none) 0 fun _ ↦ true).overflow := by decide +kernel
  exact ⟨_, hbatched, _, hleft, rfl, rfl,
    planBatch_no_overtaking (fun _ _ _ _ _ _ ↦ rfl) hbatched hleft rfl rfl⟩

end Jamswap.Builder
