import Jamswap.Builder.Orders
import Mathlib.Data.List.Perm.Subperm
import Mathlib.Tactic.Tauto

/-!
# Planning a round

`planRound` decides which queued orders clear now and which sealed ones stay hidden; `planBatch`
does the same for a batch of bounded size, refilling the batch when sealed orders in it turn out to
have lost their counterparty; `capBatch` is the server's capacity policy.

A plan is a partition of the queue by objects: every queued order is either in the batch or ended
(`RoundPlan.leaves`) or waits (`RoundPlan.waits`), and not both (`mem_waits_or_leaves`,
`waits_disjoint_leaves`); no order leaves the queue twice (`leaves_subperm`).
-/

namespace Jamswap.Builder

open Library Engine

/-- The builder's decision for one round. -/
structure RoundPlan where
  /-- sealed orders that cross now -/
  reveal : List Order
  /-- plaintext orders of the batch -/
  publicOrders : List Order
  /-- sealed orders that do not cross and stay hidden -/
  carry : List Order
  /-- sealed orders past their good-till-time that never crossed -/
  expired : List Order
  /-- sealed orders whose commit is not there yet -/
  deferred : List Order
  /-- orders that could trade but did not fit -/
  overflow : List Order

/-- What stays in the queue. -/
def RoundPlan.waits (p : RoundPlan) : List Order := p.carry ++ p.deferred ++ p.overflow

/-- What leaves the queue: the batch, and the orders that end. -/
def RoundPlan.leaves (p : RoundPlan) : List Order := p.reveal ++ p.publicOrders ++ p.expired

/-- All parts of the plan. -/
def RoundPlan.parts (p : RoundPlan) : List Order :=
  p.reveal ++ p.publicOrders ++ p.carry ++ p.expired ++ p.deferred ++ p.overflow

/-- `_best_opposing`: the lowest sell and the highest buy. -/
def bestOpposing (orders : List Order) : Option ℕ × Option ℕ :=
  (((orders.filter fun o ↦ o.side = .sell).map Order.price).min?,
    ((orders.filter fun o ↦ o.side = .buy).map Order.price).max?)

def crosses (o : Order) (minSell maxBuy : Option ℕ) : Bool :=
  match o.side with
  | .buy => minSell.any fun p ↦ p ≤ o.price
  | .sell => maxBuy.any fun p ↦ o.price ≤ p

/-- The good-till-time attached to the order has passed. -/
def Order.lapsed (o : Order) (now : Time) : Bool := o.expiry.any fun e ↦ e ≤ now

/-- Plan one auction round. Crossing is judged against the resting book, the public orders and the
sealed orders that are ready, which is what a round would submit. -/
def planRound (pending resting : List Order) (now : Time) (ready : Order → Bool) : RoundPlan :=
  let publicOrders := pending.filter fun o ↦ !o.sealed
  let sealedOrders := pending.filter fun o ↦ o.sealed
  let readyOrders := sealedOrders.filter ready
  let notReady := sealedOrders.filter fun o ↦ !ready o
  let best := bestOpposing (resting ++ publicOrders ++ readyOrders)
  let hidden := readyOrders.filter fun o ↦ !crosses o best.1 best.2
  { reveal := readyOrders.filter fun o ↦ crosses o best.1 best.2
    publicOrders
    carry := hidden.filter fun o ↦ !o.lapsed now
    expired := hidden.filter (fun o ↦ o.lapsed now) ++ notReady.filter fun o ↦ o.lapsed now
    deferred := notReady.filter fun o ↦ !o.lapsed now
    overflow := [] }

/-- Batch refills before unproven sealed orders give way. -/
def fitPasses : ℕ := 4

/-- The passes of `planBatch` that are left: fit the candidates into a batch, plan the batch, and
when sealed orders in it are stuck (their counterparties were left over the cap) take them out and
try again. In the last pass only the reveals of the pass before compete. -/
def refill (pending resting : List Order) (fit : List Order → List Order) (now : Time) :
    ℕ → List Order → List Order → List Order → RoundPlan → RoundPlan × List Order × List Order
  | 0, _, carry, expired, plan => (plan, carry, expired)
  | passes + 1, crossing, carry, expired, previous =>
    let crossing := if passes = 0 then previous.reveal else crossing
    let plan := planRound (fit (pending.filter fun o ↦ !o.sealed ∨ o ∈ crossing)) resting now
      fun _ ↦ true
    let stuck := plan.carry ++ plan.expired
    if stuck = [] then (plan, carry, expired)
    else
      refill pending resting fit now passes (crossing.filter fun o ↦ o ∉ stuck)
        (carry ++ plan.carry) (expired ++ plan.expired) plan

/-- Plan one round whose batch is bounded by `fit`, applied only to the orders that can join. -/
def planBatch (pending resting : List Order) (fit : List Order → List Order) (now : Time)
    (ready : Order → Bool) : RoundPlan :=
  let full := planRound pending resting now ready
  let (plan, carry, expired) :=
    refill pending resting fit now (fitPasses + 1) full.reveal full.carry
    full.expired full
  let placed := plan.reveal ++ plan.publicOrders ++ carry ++ expired ++ full.deferred
  { reveal := plan.reveal
    publicOrders := plan.publicOrders
    carry
    expired
    deferred := full.deferred
    overflow := pending.filter fun o ↦ o ∉ placed }

/-! ### The server's capacity policy -/

/-- Deal each account's public orders, lowest seq first, into the places its public orders hold in
the queue. -/
def deal : List Order → (UInt32 → List Order) → List Order
  | [], _ => []
  | o :: orders, hand =>
    if o.sealed then o :: deal orders hand
    else
      match hand o.account with
      | [] => o :: deal orders hand
      | x :: rest => x :: deal orders (Function.update hand o.account rest)

/-- An account's public orders, lowest seq first. -/
def hands (orders : List Order) (account : UInt32) : List Order :=
  (orders.filter fun o ↦ !o.sealed && o.account = account).insertionSort fun a b ↦ a.seq ≤ b.seq

/-- The longest run of the queue within the order count, the gas budget and the sealed cap. An order
that fits no round is passed over. -/
def fillBatch (cap : ℕ) (gas : Order → ℕ) (budget : ℕ) (sealedCap : Option ℕ) :
    List Order → ℕ → ℕ → ℕ → List Order
  | [], _, _, _ => []
  | o :: orders, count, used, sealedCount =>
    if budget < gas o then fillBatch cap gas budget sealedCap orders count used sealedCount
    else if cap ≤ count ∨ budget < used + gas o ∨ (o.sealed ∧ sealedCap.any fun c ↦ c ≤ sealedCount)
      then []
    else
      o :: fillBatch cap gas budget sealedCap orders (count + 1) (used + gas o)
        (sealedCount + if o.sealed then 1 else 0)

/-- `_cap_batch`: the batch and the overflow. -/
def capBatch (orders : List Order) (cap : ℕ) (gas : Order → ℕ) (budget : ℕ)
    (sealedCap : Option ℕ) : List Order × List Order :=
  let out := deal orders (hands orders)
  let batch := fillBatch cap gas budget sealedCap out 0 0 0
  (batch, out.filter fun o ↦ o ∉ batch)

/-! ### A plan is a partition -/

theorem RoundPlan.leaves_sublist_parts (p : RoundPlan) : p.leaves.Sublist p.parts :=
  ((List.sublist_append_left _ p.carry).append_right p.expired).trans
    ((List.sublist_append_left _ p.deferred).trans (List.sublist_append_left _ p.overflow))

section Plan

variable {pending resting : List Order} {now : Time} {ready : Order → Bool} {o : Order}

/-- Does the order cross the liquidity this plan judges by? -/
def planCrosses (pending resting : List Order) (ready : Order → Bool) (o : Order) : Bool :=
  let best := bestOpposing (resting ++ (pending.filter fun o ↦ !o.sealed) ++
    (pending.filter fun o ↦ o.sealed).filter ready)
  crosses o best.1 best.2

theorem mem_reveal : o ∈ (planRound pending resting now ready).reveal ↔
    o ∈ pending ∧ o.sealed = true ∧ ready o = true ∧
      planCrosses pending resting ready o = true := by
  simp only [planRound, planCrosses, List.mem_filter, and_assoc]

/-- Of a batch of sealed and of public orders, the sealed ones that cross are revealed. -/
theorem reveal_batch_eq_filter {sealedOrders publicOrders : List Order}
    (resting : List Order) (now : Time)
    (hsealed : ∀ o ∈ sealedOrders, o.sealed = true)
    (hpublic : ∀ o ∈ publicOrders, o.sealed = false) :
    (planRound (sealedOrders ++ publicOrders) resting now fun _ ↦ true).reveal =
      sealedOrders.filter (planCrosses (sealedOrders ++ publicOrders) resting fun _ ↦ true) := by
  have hbatch : (sealedOrders ++ publicOrders).filter (fun o ↦ o.sealed) = sealedOrders := by
    rw [List.filter_append, List.filter_eq_self.mpr hsealed,
      List.filter_eq_nil_iff.mpr fun o ho ↦ by simp [hpublic o ho], List.append_nil]
  show ((List.filter (fun o : Order ↦ o.sealed) _).filter fun _ ↦ true).filter
    (planCrosses (sealedOrders ++ publicOrders) resting fun _ ↦ true) = _
  rw [hbatch, List.filter_true]

theorem mem_public : o ∈ (planRound pending resting now ready).publicOrders ↔
    o ∈ pending ∧ o.sealed = false := by
  simp [planRound]

theorem mem_carry : o ∈ (planRound pending resting now ready).carry ↔
    o ∈ pending ∧ o.sealed = true ∧ ready o = true ∧
      planCrosses pending resting ready o = false ∧ o.lapsed now = false := by
  simp only [planRound, planCrosses, List.mem_filter, and_assoc, Bool.not_eq_true']

theorem mem_expired : o ∈ (planRound pending resting now ready).expired ↔
    o ∈ pending ∧ o.sealed = true ∧ o.lapsed now = true ∧
      (ready o = true → planCrosses pending resting ready o = false) := by
  simp only [planRound, planCrosses, List.mem_append, List.mem_filter, Bool.not_eq_true']
  cases ready o <;> simp <;> tauto

theorem mem_deferred : o ∈ (planRound pending resting now ready).deferred ↔
    o ∈ pending ∧ o.sealed = true ∧ ready o = false ∧ o.lapsed now = false := by
  simp only [planRound, List.mem_filter, and_assoc, Bool.not_eq_true']

/-- An order that crosses is not stuck. -/
theorem notMem_stuck (h : o ∈ (planRound pending resting now ready).reveal) :
    o ∉ (planRound pending resting now ready).carry ++
      (planRound pending resting now ready).expired := by
  obtain ⟨-, -, hready, hcrosses⟩ := mem_reveal.mp h
  intro hstuck
  rcases List.mem_append.mp hstuck with hc | he
  · simp [(mem_carry.mp hc).2.2.2.1] at hcrosses
  · simp [(mem_expired.mp he).2.2.2 hready] at hcrosses

theorem notMem_expired_of_carry (h : o ∈ (planRound pending resting now ready).carry) :
    o ∉ (planRound pending resting now ready).expired := by
  intro he
  have hlive := (mem_carry.mp h).2.2.2.2
  simp [(mem_expired.mp he).2.2.1] at hlive

/-- Two parts of a list that share no element are a part together. -/
theorem subperm_append_of_disjoint {xs ys zs : List Order} (hxs : xs.Subperm zs)
    (hys : ys.Subperm zs) (hdisjoint : ∀ o ∈ xs, o ∉ ys) : (xs ++ ys).Subperm zs := by
  refine List.subperm_ext_iff.mpr fun o ho ↦ ?_
  rw [List.count_append]
  by_cases hmem : o ∈ xs
  · rw [List.count_eq_zero_of_not_mem (hdisjoint o hmem), Nat.add_zero]
    exact hxs.count_le o
  · rw [List.count_eq_zero_of_not_mem hmem, Nat.zero_add]
    exact hys.count_le o

/-- No order expires more often than it is queued. -/
theorem expired_subperm (pending resting : List Order) (now : Time) (ready : Order → Bool) :
    (planRound pending resting now ready).expired.Subperm pending := by
  refine subperm_append_of_disjoint ?_ ?_ fun o ho hnot ↦ ?_
  · exact (List.filter_sublist.trans (List.filter_sublist.trans
      (List.filter_sublist.trans List.filter_sublist))).subperm
  · exact (List.filter_sublist.trans (List.filter_sublist.trans List.filter_sublist)).subperm
  · simp only [List.mem_filter, Bool.not_eq_true'] at ho hnot
    simp [ho.1.1.2] at hnot

theorem carry_sublist (pending resting : List Order) (now : Time) (ready : Order → Bool) :
    (planRound pending resting now ready).carry.Sublist pending :=
  List.filter_sublist.trans (List.filter_sublist.trans
    (List.filter_sublist.trans List.filter_sublist))

/-- The batch of a plan, split by kind, holds no order more often than the batch does. -/
theorem reveal_public_subperm (pending resting : List Order) (now : Time) (ready : Order → Bool) :
    ((planRound pending resting now ready).reveal ++
      (planRound pending resting now ready).publicOrders).Subperm pending := by
  have hsplit : (pending.filter (fun o ↦ o.sealed) ++ pending.filter fun o ↦ !o.sealed).Perm
      pending := List.filter_append_perm _ _
  refine List.Subperm.trans ?_ hsplit.subperm
  refine (List.Sublist.append ?_ (List.Sublist.refl _)).subperm
  exact List.filter_sublist.trans List.filter_sublist

end Plan

variable {crossing carry expired : List Order} {o : Order}

section Batch

variable {pending resting : List Order} {fit : List Order → List Order} {now : Time}
  {ready : Order → Bool} {deferred : List Order}

/-- What the passes keep: every sealed order is still competing, stays hidden, has expired or is
deferred, and no two of these at once. -/
structure Sorted (pending deferred crossing carry expired : List Order) : Prop where
  crossing_mem : ∀ o ∈ crossing, o ∈ pending ∧ o.sealed = true
  carry_mem : ∀ o ∈ carry, o.sealed = true ∧ o ∉ crossing ∧ o ∉ expired
  expired_mem : ∀ o ∈ expired, o ∈ pending ∧ o.sealed = true ∧ o ∉ crossing
  expired_subperm : expired.Subperm pending
  deferred_mem : ∀ o ∈ deferred, o.sealed = true ∧ o ∉ crossing ∧ o ∉ expired
  carry_subperm : carry.Subperm pending
  deferred_apart : ∀ o ∈ deferred, o ∉ carry

theorem Sorted.shrink {crossing' : List Order} (h : Sorted pending deferred crossing carry expired)
    (hsub : crossing' ⊆ crossing) :
    Sorted pending deferred crossing' carry expired where
  crossing_mem o ho := h.crossing_mem o (hsub ho)
  carry_mem o ho :=
    ⟨(h.carry_mem o ho).1, fun hc ↦ (h.carry_mem o ho).2.1 (hsub hc), (h.carry_mem o ho).2.2⟩
  expired_mem o ho :=
    ⟨(h.expired_mem o ho).1, (h.expired_mem o ho).2.1,
      fun hc ↦ (h.expired_mem o ho).2.2 (hsub hc)⟩
  expired_subperm := h.expired_subperm
  deferred_mem o ho :=
    ⟨(h.deferred_mem o ho).1, fun hc ↦ (h.deferred_mem o ho).2.1 (hsub hc),
      (h.deferred_mem o ho).2.2⟩
  carry_subperm := h.carry_subperm
  deferred_apart := h.deferred_apart

/-- A pass moves its stuck orders from the competing ones to the hidden and the expired. -/
theorem Sorted.pass {stuckCarry stuckExpired : List Order}
    (h : Sorted pending deferred crossing carry expired)
    (hcarry : ∀ o ∈ stuckCarry, o ∈ crossing ∧ o ∉ stuckExpired)
    (hexpired : ∀ o ∈ stuckExpired, o ∈ crossing) (hsubCarry : stuckCarry.Subperm pending)
    (hsub : stuckExpired.Subperm pending) :
    Sorted pending deferred (crossing.filter fun o ↦ o ∉ stuckCarry ++ stuckExpired)
      (carry ++ stuckCarry) (expired ++ stuckExpired) where
  crossing_mem o ho := h.crossing_mem o (List.mem_of_mem_filter ho)
  carry_mem o ho := by
    rcases List.mem_append.mp ho with ho | ho
    · obtain ⟨hsealed, hcross, hexp⟩ := h.carry_mem o ho
      refine ⟨hsealed, fun hc ↦ hcross (List.mem_of_mem_filter hc), fun he ↦ ?_⟩
      rcases List.mem_append.mp he with he | he
      · exact hexp he
      · exact hcross (hexpired o he)
    · obtain ⟨hcross, hnot⟩ := hcarry o ho
      refine ⟨(h.crossing_mem o hcross).2, fun hc ↦ ?_, fun he ↦ ?_⟩
      · simp [ho] at hc
      · rcases List.mem_append.mp he with he | he
        · exact (h.expired_mem o he).2.2 hcross
        · exact hnot he
  expired_mem o ho := by
    rcases List.mem_append.mp ho with ho | ho
    · obtain ⟨hmem, hsealed, hcross⟩ := h.expired_mem o ho
      exact ⟨hmem, hsealed, fun hc ↦ hcross (List.mem_of_mem_filter hc)⟩
    · obtain ⟨hmem, hsealed⟩ := h.crossing_mem o (hexpired o ho)
      refine ⟨hmem, hsealed, fun hc ↦ ?_⟩
      simp [ho] at hc
  expired_subperm := subperm_append_of_disjoint h.expired_subperm hsub
    fun o ho hstuck ↦ (h.expired_mem o ho).2.2 (hexpired o hstuck)
  deferred_mem o ho := by
    obtain ⟨hsealed, hcross, hexp⟩ := h.deferred_mem o ho
    refine ⟨hsealed, fun hc ↦ hcross (List.mem_of_mem_filter hc), fun he ↦ ?_⟩
    rcases List.mem_append.mp he with he | he
    · exact hexp he
    · exact hcross (hexpired o he)
  carry_subperm := subperm_append_of_disjoint h.carry_subperm hsubCarry
    fun o ho hstuck ↦ (h.carry_mem o ho).2.1 (hcarry o hstuck).1
  deferred_apart o ho hc := by
    rcases List.mem_append.mp hc with hc | hc
    · exact h.deferred_apart o ho hc
    · exact (h.deferred_mem o ho).2.1 (hcarry o hc).1

variable (hfit : ∀ cands, (fit cands).Subperm cands)

include hfit

/-- A batch is made of candidates: no sealed order in it that is not competing. -/
theorem mem_crossing_of_batch
    (ho : o ∈ fit (pending.filter fun o ↦ !o.sealed ∨ o ∈ crossing)) (hsealed : o.sealed = true) :
    o ∈ crossing := by
  have hmem := (hfit _).subset ho
  simpa [hsealed] using (List.mem_filter.mp hmem).2

variable (resting now) in
/-- The passes end with a plan of some batch of the queue whose reveals were still competing. -/
theorem refill_spec (passes : ℕ) (previous : RoundPlan)
    (h : Sorted pending deferred crossing carry expired)
    (hprevious : passes = 1 → previous.reveal ⊆ crossing) (hpasses : 0 < passes) :
    let out := refill pending resting fit now passes crossing carry expired previous
    (∃ batch crossing', batch.Subperm pending ∧ crossing' ⊆ crossing ∧
      out.1 = planRound batch resting now (fun _ ↦ true) ∧ out.1.reveal ⊆ crossing' ∧
      Sorted pending deferred crossing' out.2.1 out.2.2) := by
  induction passes generalizing crossing carry expired previous with
  | zero => omega
  | succ passes ih =>
    simp only [refill]
    -- the candidates of this pass, after the rule of the last one
    generalize hnow : (if passes = 0 then previous.reveal else crossing) = competing
    have hsub : competing ⊆ crossing := by
      rw [← hnow]
      split_ifs with hlast
      · exact hprevious (by omega)
      · exact fun _ ho ↦ ho
    have hsorted := h.shrink hsub
    generalize hbatch : fit (pending.filter fun o ↦ !o.sealed ∨ o ∈ competing) = batch
    have hcompete : ∀ o ∈ batch, o.sealed = true → o ∈ competing := fun o ho ↦
      mem_crossing_of_batch hfit (hbatch ▸ ho)
    have hperm : batch.Subperm pending := by
      rw [← hbatch]
      exact (hfit _).trans List.filter_sublist.subperm
    have hreveal : (planRound batch resting now fun _ ↦ true).reveal ⊆ competing := fun o ho ↦
      hcompete o (mem_reveal.mp ho).1 (mem_reveal.mp ho).2.1
    split_ifs with hstuck
    · exact ⟨batch, competing, hperm, hsub, rfl, hreveal, hsorted⟩
    · have hcarry : ∀ o ∈ (planRound batch resting now fun _ ↦ true).carry,
          o ∈ competing ∧ o ∉ (planRound batch resting now fun _ ↦ true).expired := fun o ho ↦
        ⟨hcompete o (mem_carry.mp ho).1 (mem_carry.mp ho).2.1, notMem_expired_of_carry ho⟩
      have hexpired : ∀ o ∈ (planRound batch resting now fun _ ↦ true).expired,
          o ∈ competing := fun o ho ↦
        hcompete o (mem_expired.mp ho).1 (mem_expired.mp ho).2.1
      have hpass := hsorted.pass hcarry hexpired ((carry_sublist _ _ _ _).subperm.trans hperm)
        ((expired_subperm _ _ _ _).trans hperm)
      have hkept : (planRound batch resting now fun _ ↦ true).reveal ⊆
          competing.filter fun o ↦ o ∉ (planRound batch resting now fun _ ↦ true).carry ++
            (planRound batch resting now fun _ ↦ true).expired := fun o ho ↦
        List.mem_filter.mpr ⟨hreveal ho, by simpa using notMem_stuck ho⟩
      have hless : (competing.filter fun o ↦ o ∉ (planRound batch resting now fun _ ↦ true).carry ++
          (planRound batch resting now fun _ ↦ true).expired) ⊆ crossing := fun o ho ↦
        hsub (List.mem_of_mem_filter ho)
      rcases Nat.eq_zero_or_pos passes with rfl | hpos
      · exact ⟨batch, _, hperm, hless, rfl, hkept, hpass⟩
      · obtain ⟨batch', crossing', hperm', hsub', hrest⟩ := ih _ hpass (fun _ ↦ hkept) hpos
        exact ⟨batch', crossing', hperm', List.Subset.trans hsub' hless, hrest⟩

variable (pending resting now ready) in
/-- The plan of a batch, taken apart: some batch of the queue, planned alone, its reveals among
those of the whole queue, and the sealed orders sorted around it. -/
theorem planBatch_spec :
    ∃ batch, batch.Subperm pending ∧
      (planBatch pending resting fit now ready).reveal ⊆
        (planRound pending resting now ready).reveal ∧
      (planBatch pending resting fit now ready).reveal =
        (planRound batch resting now fun _ ↦ true).reveal ∧
      (planBatch pending resting fit now ready).publicOrders =
        (planRound batch resting now fun _ ↦ true).publicOrders ∧
      Sorted pending (planBatch pending resting fit now ready).deferred
        (planBatch pending resting fit now ready).reveal
        (planBatch pending resting fit now ready).carry
        (planBatch pending resting fit now ready).expired := by
  have hstart : Sorted pending (planRound pending resting now ready).deferred
      (planRound pending resting now ready).reveal (planRound pending resting now ready).carry
      (planRound pending resting now ready).expired :=
    { crossing_mem := fun o ho ↦ ⟨(mem_reveal.mp ho).1, (mem_reveal.mp ho).2.1⟩
      carry_mem := fun o ho ↦ ⟨(mem_carry.mp ho).2.1,
        fun hr ↦ notMem_stuck hr (List.mem_append_left _ ho), notMem_expired_of_carry ho⟩
      expired_mem := fun o ho ↦ ⟨(mem_expired.mp ho).1, (mem_expired.mp ho).2.1,
        fun hr ↦ notMem_stuck hr (List.mem_append_right _ ho)⟩
      expired_subperm := expired_subperm pending resting now ready
      deferred_mem := fun o ho ↦ by
        obtain ⟨-, hsealed, hready, hlive⟩ := mem_deferred.mp ho
        refine ⟨hsealed, fun hr ↦ ?_, fun he ↦ ?_⟩
        · simp [(mem_reveal.mp hr).2.2.1] at hready
        · simp [(mem_expired.mp he).2.2.1] at hlive
      carry_subperm := (carry_sublist pending resting now ready).subperm
      deferred_apart := fun o ho hc ↦ by
        have hready := (mem_deferred.mp ho).2.2.1
        simp [(mem_carry.mp hc).2.2.1] at hready }
  obtain ⟨batch, crossing, hperm, hcrossing, hplan, hreveal, hsorted⟩ :=
    refill_spec resting now hfit (fitPasses + 1) (planRound pending resting now ready) hstart
      (by simp [fitPasses]) (Nat.succ_pos _)
  refine ⟨batch, hperm, List.Subset.trans hreveal hcrossing, ?_, ?_, ?_⟩
  · rw [← hplan]
    rfl
  · rw [← hplan]
    rfl
  · exact hsorted.shrink hreveal

/-- A revealed order is sealed and its commit is ready. -/
theorem ready_of_reveal (ho : o ∈ (planBatch pending resting fit now ready).reveal) :
    o.sealed = true ∧ ready o = true := by
  obtain ⟨batch, -, hfull, -⟩ := planBatch_spec pending resting now ready hfit
  obtain ⟨-, hsealed, hready, -⟩ := mem_reveal.mp (hfull ho)
  exact ⟨hsealed, hready⟩

/-- A plaintext order of the batch is not sealed. -/
theorem open_of_public (ho : o ∈ (planBatch pending resting fit now ready).publicOrders) :
    o.sealed = false := by
  obtain ⟨batch, -, -, -, hpublic, -⟩ := planBatch_spec pending resting now ready hfit
  rw [hpublic] at ho
  exact (mem_public.mp ho).2

omit hfit in
/-- Every queued order leaves or waits. -/
theorem mem_waits_or_leaves {o : Order} (ho : o ∈ pending) :
    o ∈ (planBatch pending resting fit now ready).waits ∨
      o ∈ (planBatch pending resting fit now ready).leaves := by
  by_cases hplaced : o ∈ (planBatch pending resting fit now ready).overflow
  · left
    simp [RoundPlan.waits, hplaced]
  · simp only [planBatch, List.mem_filter, List.mem_append, decide_eq_true_eq, not_and, not_not]
      at hplaced
    simp only [RoundPlan.waits, RoundPlan.leaves, planBatch, List.mem_append]
    have := hplaced ho
    tauto

/-- No order both waits and leaves. -/
theorem waits_disjoint_leaves (ho : o ∈ (planBatch pending resting fit now ready).waits) :
    o ∉ (planBatch pending resting fit now ready).leaves := by
  obtain ⟨batch, -, -, -, -, hsorted⟩ := planBatch_spec pending resting now ready hfit
  rw [RoundPlan.leaves]
  rcases List.mem_append.mp ho with ho | ho
  · have hside : o.sealed = true ∧ o ∉ (planBatch pending resting fit now ready).reveal ∧
        o ∉ (planBatch pending resting fit now ready).expired := by
      rcases List.mem_append.mp ho with ho | ho
      · exact hsorted.carry_mem o ho
      · exact hsorted.deferred_mem o ho
    intro hleaves
    rcases List.mem_append.mp hleaves with hbatch | he
    · rcases List.mem_append.mp hbatch with hr | hp
      · exact hside.2.1 hr
      · simp [open_of_public hfit hp] at hside
    · exact hside.2.2 he
  · simp only [planBatch, List.mem_filter, List.mem_append, decide_eq_true_eq] at ho ⊢
    tauto

/-- The batch takes no order more often than the queue holds it. -/
theorem batch_subperm :
    ((planBatch pending resting fit now ready).reveal ++
      (planBatch pending resting fit now ready).publicOrders).Subperm pending := by
  obtain ⟨batch, hperm, -, hreveal, hpublic, -⟩ :=
    planBatch_spec pending resting now ready hfit
  rw [hreveal, hpublic]
  exact (reveal_public_subperm batch resting now _).trans hperm

variable (resting fit now ready) in
/-- The parts of a plan together hold no order more often than the queue does. -/
theorem parts_subperm :
    (planBatch pending resting fit now ready).parts.Subperm pending := by
  obtain ⟨batch, -, -, -, -, hsorted⟩ := planBatch_spec pending resting now ready hfit
  set plan := planBatch pending resting fit now ready with hplan
  have hbatch : (plan.reveal ++ plan.publicOrders).Subperm pending := batch_subperm hfit
  have hdeferred : plan.deferred.Subperm pending :=
    (List.filter_sublist.trans (List.filter_sublist.trans List.filter_sublist)).subperm
  have hclosed : ∀ o ∈ plan.reveal ++ plan.publicOrders, o.sealed = true → o ∈ plan.reveal := by
    intro o ho hsealed
    rcases List.mem_append.mp ho with hr | hp
    · exact hr
    · simp [open_of_public hfit hp] at hsealed
  have hcarry : (plan.reveal ++ plan.publicOrders ++ plan.carry).Subperm pending :=
    subperm_append_of_disjoint hbatch hsorted.carry_subperm fun o ho hc ↦
      (hsorted.carry_mem o hc).2.1 (hclosed o ho (hsorted.carry_mem o hc).1)
  have hexpired : (plan.reveal ++ plan.publicOrders ++ plan.carry ++ plan.expired).Subperm
      pending := by
    refine subperm_append_of_disjoint hcarry hsorted.expired_subperm fun o ho he ↦ ?_
    obtain ⟨-, hsealed, hcross⟩ := hsorted.expired_mem o he
    rcases List.mem_append.mp ho with hb | hc
    · exact hcross (hclosed o hb hsealed)
    · exact (hsorted.carry_mem o hc).2.2 he
  have hplaced : (plan.reveal ++ plan.publicOrders ++ plan.carry ++ plan.expired ++
      plan.deferred).Subperm pending := by
    refine subperm_append_of_disjoint hexpired hdeferred fun o ho hd ↦ ?_
    obtain ⟨hsealed, hcross, hexp⟩ := hsorted.deferred_mem o hd
    rcases List.mem_append.mp ho with hbc | he
    · rcases List.mem_append.mp hbc with hb | hc
      · exact hcross (hclosed o hb hsealed)
      · exact hsorted.deferred_apart o hd hc
    · exact hexp he
  -- the overflow is what is left of the queue
  refine subperm_append_of_disjoint hplaced List.filter_sublist.subperm fun o ho hover ↦ ?_
  exact of_decide_eq_true (List.mem_filter.mp hover).2 ho

/-- A queue of distinct orders is divided among the parts of the plan: every order is in one part,
once. -/
theorem parts_perm (hpending : pending.Nodup) :
    (planBatch pending resting fit now ready).parts.Perm pending := by
  refine (parts_subperm resting fit now ready hfit).antisymm (hpending.subperm fun o ho ↦ ?_)
  have hside := @mem_waits_or_leaves pending resting fit now ready o ho
  simp only [RoundPlan.waits, RoundPlan.leaves, RoundPlan.parts, List.mem_append] at hside ⊢
  tauto

/-- No order leaves the queue more often than it is there. -/
theorem leaves_subperm :
    (planBatch pending resting fit now ready).leaves.Subperm pending :=
  (RoundPlan.leaves_sublist_parts _).subperm.trans (parts_subperm resting fit now ready hfit)

end Batch

/-! ### The capacity policy only selects -/

section Cap

/-- The hands fit the places: every account has a card for each of its public orders. -/
structure Dealt (orders : List Order) (hand : UInt32 → List Order) : Prop where
  length : ∀ a, (hand a).length = (orders.filter fun o ↦ !o.sealed && o.account = a).length
  owned : ∀ a, ∀ x ∈ hand a, x.sealed = false ∧ x.account = a

theorem mem_hands {orders : List Order} {account : UInt32} {x : Order} :
    x ∈ hands orders account ↔ x ∈ orders ∧ x.sealed = false ∧ x.account = account := by
  rw [hands, List.mem_insertionSort, List.mem_filter]
  simp

theorem dealt_hands (orders : List Order) : Dealt orders (hands orders) where
  length _ := (List.perm_insertionSort _ _).length_eq
  owned _ _ hx := (mem_hands.mp hx).2

namespace Dealt

variable {o : Order} {orders : List Order} {hand : UInt32 → List Order}

theorem of_sealed (h : Dealt (o :: orders) hand) (hsealed : o.sealed = true) :
    Dealt orders hand where
  length a := by simpa [hsealed] using h.length a
  owned := h.owned

/-- The place of a public order takes a card of its account. -/
theorem draw (h : Dealt (o :: orders) hand) (hopen : o.sealed = false) :
    ∃ x rest, hand o.account = x :: rest ∧ x.account = o.account ∧
      Dealt orders (Function.update hand o.account rest) := by
  have hlen := h.length o.account
  rw [List.filter_cons_of_pos (by simp [hopen]), List.length_cons] at hlen
  cases hcards : hand o.account with
  | nil => simp [hcards] at hlen
  | cons x rest =>
    rw [hcards, List.length_cons] at hlen
    refine ⟨x, rest, rfl, (h.owned o.account x (by simp [hcards])).2, fun a ↦ ?_, fun a y hy ↦ ?_⟩
    · by_cases ha : a = o.account
      · subst ha
        rw [Function.update_self]
        omega
      · rw [Function.update_of_ne ha, h.length a]
        simp [Ne.symm ha]
    · rw [Function.update_apply] at hy
      split_ifs at hy with ha
      · subst ha
        exact h.owned _ y (by simp [hcards, hy])
      · exact h.owned a y hy

/-- Dealing puts every order of the hands somewhere, and keeps the sealed ones in place. -/
theorem count_deal (h : Dealt orders hand) (x : Order) :
    (deal orders hand).count x =
      (orders.filter fun o ↦ o.sealed).count x + (hand x.account).count x := by
  induction orders generalizing hand with
  | nil =>
    have hempty : hand x.account = [] := List.length_eq_zero_iff.mp (h.length x.account)
    simp [deal, hempty]
  | cons o orders ih =>
    by_cases hsealed : o.sealed = true
    · simp only [deal, hsealed, if_true, List.filter_cons_of_pos, List.count_cons,
        ih (h.of_sealed hsealed)]
      omega
    · have hopen : o.sealed = false := by simpa using hsealed
      obtain ⟨y, rest, hcards, hy, hrest⟩ := h.draw hopen
      simp only [deal, hopen, hcards, if_false, Bool.false_eq_true, List.count_cons, ih hrest]
      rw [List.filter_cons_of_neg (by simp [hopen])]
      by_cases hx : x.account = o.account
      · rw [hx, Function.update_self, hcards, List.count_cons]
        omega
      · have hne : (y == x) = false := by
          simp only [beq_eq_false_iff_ne, ne_eq]
          rintro rfl
          exact hx hy
        rw [Function.update_of_ne hx, hne]
        simp

end Dealt

/-- Dealing rearranges the queue. -/
theorem deal_perm (orders : List Order) : (deal orders (hands orders)).Perm orders := by
  refine List.perm_iff_count.mpr fun x ↦ ?_
  have hsort : (hands orders x.account).Perm
      (orders.filter fun o ↦ !o.sealed && o.account = x.account) := List.perm_insertionSort _ _
  rw [(dealt_hands orders).count_deal, hsort.count_eq]
  cases hsealed : x.sealed
  · have hnone : (orders.filter fun o ↦ o.sealed).count x = 0 :=
      List.count_eq_zero_of_not_mem (by simp [hsealed])
    rw [hnone, Nat.zero_add, List.count_filter (by simp [hsealed])]
  · have hnone : (orders.filter fun o ↦ !o.sealed && o.account = x.account).count x = 0 :=
      List.count_eq_zero_of_not_mem (by simp [hsealed])
    rw [hnone, Nat.add_zero, List.count_filter (by simp [hsealed])]

theorem fillBatch_sublist (cap : ℕ) (gas : Order → ℕ) (budget : ℕ) (sealedCap : Option ℕ)
    (orders : List Order) (count used sealedCount : ℕ) :
    (fillBatch cap gas budget sealedCap orders count used sealedCount).Sublist orders := by
  induction orders generalizing count used sealedCount with
  | nil => exact List.Sublist.refl _
  | cons o orders ih =>
    rw [fillBatch]
    split
    · exact (ih _ _ _).cons o
    · split
      · exact List.nil_sublist _
      · exact (ih _ _ _).cons_cons o

theorem capBatch_subperm (orders : List Order) (cap : ℕ) (gas : Order → ℕ) (budget : ℕ)
    (sealedCap : Option ℕ) : (capBatch orders cap gas budget sealedCap).1.Subperm orders :=
  (fillBatch_sublist _ _ _ _ _ _ _ _).subperm.trans (deal_perm orders).subperm

end Cap

end Jamswap.Builder
