import Jamswap.Engine.Attribution
import Mathlib.Tactic.Linarith

/-!
# A settlement moves value and creates none

The deltas of a settlement are what its entries move, and for the treasury the rounding residual on
top (`amount_settleDeltas_moves`); without a fee per fill, the traders' net changes
(`amount_settleDeltas`). Both sides of a clearing trade the same volume, so as long
as orders that share an id stand on the same side, the base changes cancel
(`sum_baseChange_settleEntries`) and the buy entries add up to the cleared volume
(`sum_buys_settleEntries`). Buyers round up and sellers down, so the residual is never negative
(`sum_quoteChange_nonpos`).
-/

namespace Jamswap.Engine

open Library

/-- Orders that share an id stand on the same side. -/
def SidesAgree (labels : List Label) : Prop :=
  ∀ l ∈ labels, ∀ l' ∈ labels, l.id = l'.id → l.side = l'.side

/-- No fill can be charged to the wrong side of the market. -/
def SidesSafe (labels : List Label) : Prop := SidesAgree labels ∨ OneSided labels

/-! ### Base -/

section Base

variable {P : Primitives} {orders : List Order}

theorem sidesAgree_of_nodup (h : (orders.map Order.id).Nodup) :
    SidesAgree (orders.map Order.label) := by
  intro l hl l' hl' hid
  obtain ⟨o, ho, rfl⟩ := List.mem_map.mp hl
  obtain ⟨o', ho', rfl⟩ := List.mem_map.mp hl'
  rw [List.inj_on_of_nodup_map h ho ho' hid]

/-- With agreeing sides, an entry stands on the side of the order that was served. -/
theorem side_firstWithId (h : SidesAgree (orders.map Order.label)) {o : Order} (ho : o ∈ orders) :
    (firstWithId orders o).side = o.side := by
  have hfirst := find?_firstWithId ho
  have hid : (firstWithId orders o).id = o.id := by
    simpa using List.find?_some hfirst
  exact h _ (List.mem_map_of_mem (List.mem_of_find?_eq_some hfirst)) _ (List.mem_map_of_mem ho) hid

/-- The quantity of the entries on one side is the volume that side traded. -/
theorem sum_side_settleEntries (hlen : orders.length ≤ 2 ^ 32)
    (h : SidesSafe (orders.map Order.label)) (side : Side) :
    (((settleEntries orders (clear P orders).fills).filter fun e ↦ e.side == side).map fun e ↦
      e.qty.toNat).sum = (clear P orders).volume.toNat := by
  rw [← sideVolume_eq P hlen side, settleEntries_clear, sideVolume]
  rcases h with hagree | hone
  · rw [List.filter_map, List.map_map]
    have hfilter : ((allocation P orders).filter
        ((fun e : SettleEntry ↦ e.side == side) ∘ fun a ↦
          ⟨(firstWithId orders a.1.order).account, (firstWithId orders a.1.order).side,
            UInt32.ofNat a.2⟩)) =
        (allocation P orders).filter fun a ↦ a.1.order.side == side := by
      refine List.filter_congr fun a ha ↦ ?_
      have hmem : a.1.order ∈ orders :=
        List.mem_of_getElem? (mem_refs_iff.mp (allocation_spec ha).1)
      simp only [Function.comp_apply, side_firstWithId hagree hmem]
    rw [hfilter]
    exact congrArg List.sum (List.map_congr_left fun a ha ↦
      toNat_fill_qty (List.mem_of_mem_filter ha))
  · rw [allocation_of_oneSided hone]
    rfl

theorem sum_baseChange (entries : List SettleEntry) :
    (entries.map SettleEntry.baseChange).sum =
      ((((entries.filter fun e ↦ e.side == .buy).map fun e ↦ e.qty.toNat).sum : ℕ) : ℤ) -
        (((entries.filter fun e ↦ e.side == .sell).map fun e ↦ e.qty.toNat).sum : ℕ) := by
  induction entries with
  | nil => rfl
  | cons e entries ih =>
    rw [List.map_cons, List.sum_cons, ih]
    cases hside : e.side with
    | buy =>
      rw [List.filter_cons_of_pos (by simp [hside]), List.filter_cons_of_neg (by simp [hside]),
        SettleEntry.baseChange, hside, List.map_cons, List.sum_cons]
      push_cast
      ring
    | sell =>
      rw [List.filter_cons_of_neg (by simp [hside]), List.filter_cons_of_pos (by simp [hside]),
        SettleEntry.baseChange, hside, List.map_cons, List.sum_cons]
      push_cast
      ring

/-- The base bought is the base sold. -/
theorem sum_baseChange_settleEntries (hlen : orders.length ≤ 2 ^ 32)
    (h : SidesSafe (orders.map Order.label)) :
    ((settleEntries orders (clear P orders).fills).map SettleEntry.baseChange).sum = 0 := by
  rw [sum_baseChange, sum_side_settleEntries hlen h, sum_side_settleEntries hlen h, sub_self]

/-- Every entry belongs to an account of the batch. -/
theorem mem_accounts_settleEntries {e : SettleEntry}
    (h : e ∈ settleEntries orders (clear P orders).fills) :
    ∃ o ∈ orders, o.account = e.account := by
  obtain ⟨f, -, hresolve⟩ := List.mem_filterMap.mp h
  obtain ⟨o, hfound, rfl⟩ := Option.map_eq_some_iff.mp hresolve
  exact ⟨o, List.mem_of_find?_eq_some hfound, rfl⟩

end Base

/-! ### Quote -/

variable {entries : List SettleEntry}

section Quote

variable (price scale : UInt32)

theorem scale_pos : 0 < max (scale.toNat : ℤ) 1 := lt_max_of_lt_right one_pos

/-- An entry never receives more quote than its base is worth, nor pays less, and loses less than
one unit of quote to rounding. -/
theorem quoteChange_bounds (e : SettleEntry) :
    max (scale.toNat : ℤ) 1 * e.quoteChange price scale ≤ -(price.toNat * e.baseChange) ∧
      -(price.toNat * e.baseChange) <
        max (scale.toNat : ℤ) 1 * (e.quoteChange price scale + 1) := by
  have hpos := scale_pos scale
  have hle := fun x ↦ Int.ediv_mul_le x hpos.ne'
  have hlt := fun x ↦ Int.lt_ediv_add_one_mul_self x hpos
  cases hside : e.side with
  | buy =>
    have hceil := hle ((e.qty.toNat : ℤ) * price.toNat + max (scale.toNat : ℤ) 1 - 1)
    have hceil' := hlt ((e.qty.toNat : ℤ) * price.toNat + max (scale.toNat : ℤ) 1 - 1)
    simp only [SettleEntry.quoteChange, SettleEntry.baseChange, SettleEntry.notional, hside]
    constructor <;> nlinarith
  | sell =>
    have hfloor := hle ((e.qty.toNat : ℤ) * price.toNat)
    have hfloor' := hlt ((e.qty.toNat : ℤ) * price.toNat)
    simp only [SettleEntry.quoteChange, SettleEntry.baseChange, SettleEntry.notional, hside]
    constructor <;> nlinarith

/-- When the base cancels, the traders together pay at least what they receive. -/
theorem sum_quoteChange_nonpos (hbase : (entries.map SettleEntry.baseChange).sum = 0) :
    (entries.map fun e ↦ e.quoteChange price scale).sum ≤ 0 := by
  have hpos := scale_pos scale
  have hsum : ∀ es : List SettleEntry,
      max (scale.toNat : ℤ) 1 * (es.map fun e ↦ e.quoteChange price scale).sum ≤
        -(price.toNat * (es.map SettleEntry.baseChange).sum) := by
    intro es
    induction es with
    | nil => simp
    | cons e es ih =>
      have hhead := (quoteChange_bounds price scale e).1
      rw [List.map_cons, List.sum_cons, List.map_cons, List.sum_cons, mul_add, mul_add]
      linarith
  have hall := hsum entries
  rw [hbase, mul_zero, neg_zero] at hall
  exact nonpos_of_mul_nonpos_right hall hpos

/-- When the base cancels, the dust is less than one unit per entry. -/
theorem neg_length_lt_sum_quoteChange (hne : entries ≠ [])
    (hbase : (entries.map SettleEntry.baseChange).sum = 0) :
    -(entries.length : ℤ) < (entries.map fun e ↦ e.quoteChange price scale).sum := by
  have hpos := scale_pos scale
  have hsum : ∀ es : List SettleEntry, es ≠ [] →
      -(price.toNat * (es.map SettleEntry.baseChange).sum) <
        max (scale.toNat : ℤ) 1 *
          ((es.map fun e ↦ e.quoteChange price scale).sum + es.length) := by
    intro es hne
    induction es with
    | nil => exact absurd rfl hne
    | cons e es ih =>
      have hhead := (quoteChange_bounds price scale e).2
      simp only [List.map_cons, List.sum_cons, List.length_cons]
      push_cast
      by_cases hnil : es = []
      · subst hnil
        simpa using hhead
      · have htail := ih hnil
        linarith
  have hall := hsum entries hne
  rw [hbase, mul_zero, neg_zero] at hall
  have hdust := pos_of_mul_pos_right hall hpos.le
  linarith

end Quote

/-! ### Deltas -/

section Deltas

variable (price : UInt32) (feeFlat : UInt64) (treasury scale : UInt32)

/-- The flat fee on an entry, capped at its fill. -/
def SettleEntry.fee (e : SettleEntry) (feeFlat : UInt64) : ℤ := min feeFlat.toNat e.qty.toNat

/-- What an entry moves: the trader's change less the fee, and the fee to the treasury. -/
def SettleEntry.moves (e : SettleEntry) : List (UInt32 × ℤ × ℤ) :=
  [(e.account, e.baseChange - e.fee feeFlat, e.quoteChange price scale),
    (treasury, e.fee feeFlat, 0)]

/-- The net change of an account's own entries. -/
def netChange (entries : List SettleEntry) (account : UInt32) : ℤ × ℤ :=
  amount (entries.map fun e ↦ (e.account, e.baseChange, e.quoteChange price scale)) account

theorem SettleEntry.fee_nonneg (e : SettleEntry) : 0 ≤ e.fee feeFlat :=
  le_min (Int.natCast_nonneg _) (Int.natCast_nonneg _)

/-- The step in terms of the changes: the trader's first, then the fee if there is one. -/
theorem settleStep_eq (out : List (UInt32 × ℤ × ℤ)) (e : SettleEntry) :
    settleStep price feeFlat treasury scale out e =
      if 0 < e.fee feeFlat then
        tally (tally out e.account (e.baseChange - e.fee feeFlat, e.quoteChange price scale))
          treasury (e.fee feeFlat, 0)
      else tally out e.account (e.baseChange - e.fee feeFlat, e.quoteChange price scale) := by
  simp only [settleStep, SettleEntry.baseChange, SettleEntry.quoteChange]
  cases e.side with
  | buy => rfl
  | sell =>
    simp only [neg_add']
    rfl

theorem amount_settleStep (out : List (UInt32 × ℤ × ℤ)) (e : SettleEntry) (account : UInt32) :
    amount (settleStep price feeFlat treasury scale out e) account =
      amount out account + amount (e.moves price feeFlat treasury scale) account := by
  rw [settleStep_eq, SettleEntry.moves, amount_cons, amount_cons, amount_nil, add_zero]
  simp only [eq_comm (b := account)]
  by_cases hfee : 0 < e.fee feeFlat
  · rw [if_pos hfee, amount_tally, amount_tally, add_assoc]
  · have hzero : e.fee feeFlat = 0 := le_antisymm (not_lt.mp hfee) (e.fee_nonneg feeFlat)
    rw [if_neg hfee, amount_tally, hzero]
    simp

theorem amount_foldl_settleStep (entries : List SettleEntry) (out : List (UInt32 × ℤ × ℤ))
    (account : UInt32) :
    amount (entries.foldl (settleStep price feeFlat treasury scale) out) account =
      amount out account +
        amount (entries.flatMap fun e ↦ e.moves price feeFlat treasury scale) account := by
  induction entries generalizing out with
  | nil => simp
  | cons e entries ih =>
    rw [List.foldl_cons, ih, amount_settleStep, List.flatMap_cons, amount_append, add_assoc]

/-- Accounts change by what the entries move, and the treasury takes the residual. -/
theorem amount_settleDeltas_moves (entries : List SettleEntry) (account : UInt32) :
    amount (settleDeltas price entries feeFlat treasury scale) account =
      amount (entries.flatMap fun e ↦ e.moves price feeFlat treasury scale) account +
        if account = treasury then (0, -(entries.map fun e ↦ e.quoteChange price scale).sum)
        else 0 := by
  have hfold := sum_foldl_settleStep price feeFlat treasury scale entries []
  rw [List.map_nil, List.sum_nil, zero_add] at hfold
  set out := entries.foldl (settleStep price feeFlat treasury scale) [] with hout
  have hmoved : amount out account =
      amount (entries.flatMap fun e ↦ e.moves price feeFlat treasury scale) account := by
    rw [hout, amount_foldl_settleStep, amount_nil, zero_add]
  have hresid : (out.map fun d ↦ d.2.2).sum =
      (entries.map fun e ↦ e.quoteChange price scale).sum := by
    have hsnd := congrArg (AddMonoidHom.snd ℤ ℤ) hfold
    rw [map_list_sum, map_list_sum, List.map_map, List.map_map] at hsnd
    exact hsnd
  simp only [settleDeltas, ← hout]
  split_ifs with hzero haccount haccount
  · rw [amount_tally, if_pos haccount, hmoved, hresid]
  · rw [amount_tally, if_neg haccount, hmoved]
  · rw [not_not, hresid] at hzero
    rw [hmoved, hzero, neg_zero]
    exact (add_zero _).symm
  · rw [hmoved, add_zero]

/-- Without a fee, the traders change by their own entries. -/
theorem amount_settleDeltas (entries : List SettleEntry) (account : UInt32) :
    amount (settleDeltas price entries 0 treasury scale) account =
      netChange price scale entries account +
        if account = treasury then (0, -(entries.map fun e ↦ e.quoteChange price scale).sum)
        else 0 := by
  have hfree : ∀ e : SettleEntry, e.fee 0 = 0 := fun e ↦ by simp [SettleEntry.fee]
  have hmoves : amount (entries.flatMap fun e ↦ e.moves price 0 treasury scale) account =
      netChange price scale entries account := by
    induction entries with
    | nil => rfl
    | cons e entries ih =>
      rw [List.flatMap_cons, amount_append, ih, netChange, netChange, List.map_cons, amount_cons,
        SettleEntry.moves, hfree, amount_cons, amount_cons, amount_nil]
      simp
  rw [amount_settleDeltas_moves, hmoves]

/-- A treasury without entries of its own collects the fees and the residual. -/
theorem amount_treasury_settleDeltas (h : ∀ e ∈ entries, e.account ≠ treasury) :
    amount (settleDeltas price entries feeFlat treasury scale) treasury =
      ((entries.map fun e ↦ e.fee feeFlat).sum,
        -(entries.map fun e ↦ e.quoteChange price scale).sum) := by
  have hmoves : amount (entries.flatMap fun e ↦ e.moves price feeFlat treasury scale) treasury =
      ((entries.map fun e ↦ e.fee feeFlat).sum, 0) := by
    induction entries with
    | nil => rfl
    | cons e entries ih =>
      rw [List.flatMap_cons, amount_append, ih fun e' he' ↦ h e' (List.mem_cons_of_mem e he'),
        SettleEntry.moves, amount_cons, amount_cons, amount_nil, if_neg (h e List.mem_cons_self),
        if_pos rfl, List.map_cons, List.sum_cons]
      simp
  rw [amount_settleDeltas_moves, hmoves, if_pos rfl]
  simp

/-- An account gives up no more base than its sells settle. -/
theorem neg_settledTo_le_netChange (entries : List SettleEntry) (account : UInt32) :
    -(settledTo entries account .sell : ℤ) ≤ (netChange price scale entries account).1 := by
  induction entries with
  | nil => exact Int.le_refl _
  | cons e entries ih =>
    have hchange : netChange price scale (e :: entries) account =
        (if e.account = account then (e.baseChange, e.quoteChange price scale) else 0) +
          netChange price scale entries account := amount_cons _ _ _
    rw [hchange, Prod.fst_add]
    by_cases haccount : e.account = account
    · rw [if_pos haccount]
      cases hside : e.side with
      | buy =>
        have hbase : e.baseChange = e.qty.toNat := by rw [SettleEntry.baseChange, hside]
        rw [settledTo, List.filter_cons_of_neg (by simp [hside]), ← settledTo]
        simp only [hbase]
        omega
      | sell =>
        have hbase : e.baseChange = -e.qty.toNat := by rw [SettleEntry.baseChange, hside]
        rw [settledTo, List.filter_cons_of_pos (by simp [hside, haccount]), List.map_cons,
          List.sum_cons, ← settledTo]
        simp only [hbase]
        push_cast
        omega
    · rw [if_neg haccount, settledTo, List.filter_cons_of_neg (by simp [haccount]), ← settledTo,
        Prod.fst_zero, zero_add]
      exact ih

theorem netChange_of_notMem {account : UInt32} (h : ∀ e ∈ entries, e.account ≠ account) :
    netChange price scale entries account = 0 := by
  refine amount_of_notMem fun hmem ↦ ?_
  rw [List.map_map] at hmem
  obtain ⟨e, he, heq⟩ := List.mem_map.mp hmem
  exact h e he heq

end Deltas

end Jamswap.Engine
