import Jamswap.Engine.Attribution

/-!
# Probing the engine with chosen quantities

A builder chooses the ids of a batch, and a clearing cannot tell two orders with one id apart. To
say exactly which choices of ids are harmless, one needs for every other choice a batch that goes
wrong. `probe labels qtys` is the batch that carries the given labels at one price and offers the
quantities of `qtys` at their positions, nothing elsewhere. Its totals are sums over the short list
`qtys` (`sum_qty_probe`), and when `qtys` offers as much on both sides everything trades
(`sum_allotted_probe`).
-/

namespace Jamswap.Engine

open Library

/-- The batch with these labels at price 1, offering `qtys` at its positions. -/
def probe (labels : List Label) (qtys : List (ℕ × ℕ)) : List Order :=
  labels.zipIdx.map fun e ↦ ⟨e.1.account, e.1.id, e.1.side, 1, UInt32.ofNat (amount qtys e.2)⟩

variable {labels : List Label} {qtys : List (ℕ × ℕ)}

@[simp] theorem length_probe (labels : List Label) (qtys : List (ℕ × ℕ)) :
    (probe labels qtys).length = labels.length := by
  simp [probe]

@[simp] theorem map_label_probe (labels : List Label) (qtys : List (ℕ × ℕ)) :
    (probe labels qtys).map Order.label = labels := by
  rw [probe, List.map_map]
  exact List.zipIdx_map_fst 0 labels

theorem price_of_mem_probe {o : Order} (h : o ∈ probe labels qtys) : o.price = 1 := by
  obtain ⟨e, -, rfl⟩ := List.mem_map.mp h
  rfl

theorem amount_le_sum (qtys : List (ℕ × ℕ)) (k : ℕ) : amount qtys k ≤ (qtys.map Prod.snd).sum :=
  (List.filter_sublist.map Prod.snd).sum_le_sum fun _ _ ↦ Nat.zero_le _

/-- The quantities offered under the labels picked out by `p`. -/
def offered (labels : List Label) (qtys : List (ℕ × ℕ)) (p : Label → Bool) : ℕ :=
  ((qtys.filter fun e ↦ labels[e.1]?.any p).map Prod.snd).sum

@[simp] theorem offered_nil (p : Label → Bool) : offered labels [] p = 0 := rfl

variable (P : Primitives) {i : ℕ} {l : Label} (hsmall : (qtys.map Prod.snd).sum < 2 ^ 32)
  (hbalanced : Balanced (probe labels qtys) 1)

theorem offered_cons {a : ℕ} (hl : labels[i]? = some l) (p : Label → Bool) :
    offered labels ((i, a) :: qtys) p = (if p l then a else 0) + offered labels qtys p := by
  unfold offered
  by_cases hp : p l
  · simp [hl, hp]
  · simp [hl, hp]

include hsmall in
/-- The quantities offered by the orders of a probe are those written down for their positions. -/
theorem sum_qty_probe (p : Label → Bool) :
    (((probe labels qtys).filter fun o ↦ p o.label).map fun o ↦ o.qty.toNat).sum =
      offered labels qtys p := by
  set positions := (labels.zipIdx.filter fun e ↦ p e.1).map Prod.snd with hpositions
  have hnodup : positions.Nodup := by
    refine (List.filter_sublist.map Prod.snd).nodup ?_
    rw [List.zipIdx_map_snd]
    exact List.nodup_range'
  have hqty : (((probe labels qtys).filter fun o ↦ p o.label).map fun o ↦ o.qty.toNat) =
      positions.map (amount qtys) := by
    rw [probe, List.filter_map, List.map_map, hpositions, List.map_map]
    refine List.map_congr_left fun e _ ↦ ?_
    have hlt := (amount_le_sum qtys e.2).trans_lt hsmall
    simp only [Function.comp_apply, UInt32.toNat_ofNat', Nat.mod_eq_of_lt hlt]
  have hmem : ∀ k, k ∈ positions ↔ labels[k]?.any p := by
    intro k
    rw [hpositions, List.mem_map, Option.any_eq_true]
    constructor
    · rintro ⟨⟨l, k'⟩, hin, rfl⟩
      obtain ⟨hin, hp⟩ := List.mem_filter.mp hin
      exact ⟨l, List.mem_zipIdx_iff_getElem?.mp hin, hp⟩
    · rintro ⟨l, hl, hp⟩
      exact ⟨(l, k), List.mem_filter.mpr ⟨List.mem_zipIdx_iff_getElem?.mpr hl, hp⟩, rfl⟩
  rw [hqty, sum_map_amount hnodup, offered]
  congr 2
  refine List.filter_congr fun e _ ↦ ?_
  rw [Bool.eq_iff_iff, decide_eq_true_iff]
  exact hmem e.1

/-- Offers that match on the two sides make a balanced batch. -/
theorem balanced_probe (hlen : labels.length ≤ 2 ^ 32) (hsmall : (qtys.map Prod.snd).sum < 2 ^ 32)
    (heven : offered labels qtys (fun l ↦ l.side == .buy) =
      offered labels qtys fun l ↦ l.side == .sell) : Balanced (probe labels qtys) 1 where
  small := by rw [length_probe]; exact hlen
  level _ ho := price_of_mem_probe ho
  even := by
    rw [← sum_qty_probe hsmall, ← sum_qty_probe hsmall] at heven
    exact heven

include hsmall hbalanced in
/-- On a balanced probe, the positions picked out by `p` are given what they offer. -/
theorem sum_allotted_probe (p : Label → Bool) :
    (((refs (probe labels qtys)).filter fun r ↦ p r.order.label).map fun r ↦
      allotted P (probe labels qtys) r.index).sum = offered labels qtys p := by
  rw [← sum_qty_probe hsmall, ← sum_units_filter_refs (probe labels qtys) fun o ↦ p o.label]
  refine congrArg List.sum (List.map_congr_left fun r hr ↦ ?_)
  exact hbalanced.allotted_eq_units P (List.mem_of_mem_filter hr)

/-- Two offers of one unit on opposite sides balance. -/
theorem balanced_pair (hlen : labels.length ≤ 2 ^ 32) {j : ℕ} {l' : Label}
    (hi : labels[i]? = some l) (hj : labels[j]? = some l') (hsides : l.side ≠ l'.side) :
    Balanced (probe labels [(i, 1), (j, 1)]) 1 := by
  refine balanced_probe hlen (by simp) ?_
  simp only [offered_cons hi, offered_cons hj, offered_nil]
  cases hl : l.side <;> cases hl' : l'.side <;> simp_all

/-! ### Batches that overfill an id -/

theorem getElem?_probe (qtys : List (ℕ × ℕ)) (h : labels[i]? = some l) :
    (probe labels qtys)[i]? = some ⟨l.account, l.id, l.side, 1, UInt32.ofNat (amount qtys i)⟩ := by
  rw [probe, List.getElem?_map, List.getElem?_zipIdx, h]
  simp

include hsmall in
theorem units_probe {r : OrderRef} (h : r ∈ refs (probe labels qtys)) :
    r.units = amount qtys r.index := by
  have hget := mem_refs_iff.mp h
  obtain ⟨hlt, -⟩ := List.getElem?_eq_some_iff.mp hget
  rw [length_probe] at hlt
  rw [getElem?_probe qtys (List.getElem?_eq_getElem hlt)] at hget
  have hqty := congrArg Order.qty (Option.some.inj hget)
  rw [OrderRef.units, ← hqty, UInt32.toNat_ofNat']
  exact Nat.mod_eq_of_lt ((amount_le_sum qtys r.index).trans_lt hsmall)

include hsmall hbalanced in
theorem toNat_filledUnder_probe (id : UInt32) :
    (filledUnder (clear P (probe labels qtys)).fills id).toNat =
      offered labels qtys fun l ↦ l.id == id := by
  rw [toNat_filledUnder hbalanced.small]
  exact sum_allotted_probe P hsmall hbalanced fun l ↦ l.id == id

include hsmall hbalanced in
/-- An order of one unit whose id is filled for two or more is left with a wrapped remainder. -/
theorem remainder_ne_zero_of_overfilled {o : Order} (hqty : o.qty = 1)
    (hover : 2 ≤ offered labels qtys fun l ↦ l.id == o.id) :
    o.remainder (clear P (probe labels qtys)).fills ≠ 0 := by
  intro hzero
  rw [← toNat_filledUnder_probe P hsmall hbalanced] at hover
  have hlt := (filledUnder (clear P (probe labels qtys)).fills o.id).toNat_lt
  have hvalue := congrArg UInt64.toNat hzero
  rw [Order.remainder, UInt64.toNat_sub, UInt32.toNat_toUInt64, hqty] at hvalue
  simp only [UInt32.reduceToNat, UInt64.reduceToNat] at hvalue
  omega

/-- Two positions with one id, in a batch with both sides: some balanced quantities leave the first
of them, although it is filled in full, with a remainder. -/
theorem exists_overfilled (hlen : labels.length ≤ 2 ^ 32) {j : ℕ} {l' : Label}
    (hi : labels[i]? = some l) (hj : labels[j]? = some l') (hij : i ≠ j) (hid : l'.id = l.id)
    (hsides : ¬ OneSided labels) :
    ∃ qtys o, Balanced (probe labels qtys) 1 ∧ (probe labels qtys)[i]? = some o ∧ o.label = l ∧
      o.remainder (clear P (probe labels qtys)).fills ≠ 0 := by
  by_cases hsame : l.side = l'.side
  · obtain ⟨c, hc, hcside⟩ : ∃ c ∈ labels, c.side ≠ l.side := by
      by_contra hnone
      push Not at hnone
      exact hsides ⟨l.side, hnone⟩
    obtain ⟨k, hk⟩ := List.mem_iff_getElem?.mp hc
    have hki : k ≠ i := by
      rintro rfl
      rw [hi] at hk
      exact hcside (by rw [Option.some.inj hk])
    have hbalanced : Balanced (probe labels [(i, 1), (j, 1), (k, 2)]) 1 := by
      refine balanced_probe hlen (by simp) ?_
      simp only [offered_cons hi, offered_cons hj, offered_cons hk, offered_nil, ← hsame]
      cases hl : l.side <;> cases hcs : c.side <;> simp [hl, hcs] at hcside ⊢
    refine ⟨_, _, hbalanced, getElem?_probe _ hi, rfl, ?_⟩
    refine remainder_ne_zero_of_overfilled P (by simp) hbalanced ?_ ?_
    · simp [amount_cons, hij.symm, hki]
    · simp only [offered_cons hi, offered_cons hj, offered_cons hk, offered_nil, hid,
        beq_self_eq_true, if_true]
      omega
  · have hbalanced := balanced_pair hlen hi hj hsame
    refine ⟨_, _, hbalanced, getElem?_probe _ hi, rfl, ?_⟩
    refine remainder_ne_zero_of_overfilled P (by simp) hbalanced ?_ ?_
    · simp [amount_cons, hij.symm]
    · simp only [offered_cons hi, offered_cons hj, offered_nil, hid]
      simp

/-- A single offer finds nobody to trade with. -/
theorem allocation_probe_single (hi : labels[i]? = some l) :
    allocation P (probe labels [(i, 1)]) = [] := by
  obtain ⟨other, hother⟩ : ∃ other : Side, other ≠ l.side := by
    cases l.side with
    | buy => exact ⟨.sell, by simp⟩
    | sell => exact ⟨.buy, by simp⟩
  have hempty : ∀ o ∈ probe labels [(i, 1)], o.side = other → o.qty = 0 := by
    intro o ho hside
    obtain ⟨⟨l', k⟩, hk, rfl⟩ := List.mem_map.mp ho
    have hki : i ≠ k := by
      rintro rfl
      have heq : l = l' := Option.some.inj (hi.symm.trans (List.mem_zipIdx_iff_getElem?.mp hk))
      exact hother (heq ▸ hside.symm)
    simp [amount_cons, hki]
  exact allocation_of_empty_side hempty

end Jamswap.Engine
