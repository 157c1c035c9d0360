import Jamswap.Engine.Conservation
import Jamswap.Library.Checked

/-!
# Settlement deltas on machine integers

`settleDeltas` is stated over the integers; the source computes on `i128`. `settleDeltasChecked`
follows it operation by operation and fails where one overflows. An entry grows the magnitudes kept
in the deltas by less than 2^66 (`sum_moved_settleStep_le`), so fewer than 2^32 entries stay far
below 2^127 and the checked computation returns what the integers give (`settleDeltasChecked_eq`).
With the sums of the deltas and the bounds on the dust this is `settleDeltas_moves_value`.
-/

namespace Jamswap.Engine

open Library

/-! ### The checked computation -/

/-- An `i128` result, unless it overflows. -/
def i128 (x : ℤ) : Option ℤ := checkSigned 128 x

/-- A pair of `i128` results. -/
def i128Pair (m : ℤ × ℤ) : Option (ℤ × ℤ) := do
  let base ← i128 m.1
  let quote ← i128 m.2
  return (base, quote)

/-- `i128` division truncates. -/
def SettleEntry.notionalChecked (e : SettleEntry) (price scale : UInt32) : Option ℤ := do
  let s : ℤ := max scale.toNat 1
  let gross ← i128 (e.qty.toNat * price.toNat)
  match e.side with
  | .buy =>
    let sum ← i128 (gross + s)
    let numerator ← i128 (sum - 1)
    i128 (numerator.tdiv s)
  | .sell => i128 (gross.tdiv s)

/-- The trader's change: a buyer receives the fill less the fee and pays the notional, a seller
delivers both and receives it. -/
def SettleEntry.changeChecked (e : SettleEntry) (notional fee : ℤ) : Option (ℤ × ℤ) := do
  let q : ℤ := e.qty.toNat
  match e.side with
  | .buy =>
    let base ← i128 (q - fee)
    let quote ← i128 (-notional)
    return (base, quote)
  | .sell =>
    let owed ← i128 (q + fee)
    let base ← i128 (-owed)
    return (base, notional)

def settleStepChecked (price : UInt32) (feeFlat : UInt64) (treasury scale : UInt32)
    (out : List (UInt32 × ℤ × ℤ)) (e : SettleEntry) : Option (List (UInt32 × ℤ × ℤ)) := do
  let notional ← e.notionalChecked price scale
  let fee : ℤ := min feeFlat.toNat e.qty.toNat
  let change ← e.changeChecked notional fee
  let out ← tallyChecked i128Pair out e.account change
  if 0 < fee then tallyChecked i128Pair out treasury (fee, 0) else return out

def settleDeltasChecked (price : UInt32) (entries : List SettleEntry) (feeFlat : UInt64)
    (treasury scale : UInt32) : Option (List (UInt32 × ℤ × ℤ)) := do
  let out ← entries.foldlM (settleStepChecked price feeFlat treasury scale) []
  let resid ← sumChecked 128 (out.map fun d ↦ d.2.2)
  if resid ≠ 0 then
    let credit ← i128 (-resid)
    tallyChecked i128Pair out treasury (0, credit)
  else return out

/-! ### Magnitudes -/

/-- The magnitude of a change. -/
def moved (m : ℤ × ℤ) : ℤ := |m.1| + |m.2|

theorem moved_add_le (m m' : ℤ × ℤ) : moved (m + m') ≤ moved m + moved m' := by
  have hbase := abs_add_le m.1 m'.1
  have hquote := abs_add_le m.2 m'.2
  simp only [moved, Prod.fst_add, Prod.snd_add]
  linarith

theorem moved_nonneg (m : ℤ × ℤ) : 0 ≤ moved m := add_nonneg (abs_nonneg _) (abs_nonneg _)

theorem i128_of_abs_lt {x : ℤ} (h : |x| < 2 ^ 127) : i128 x = some x := checkSigned_of_abs_lt h

theorem i128Pair_of_moved_lt {m : ℤ × ℤ} (h : moved m < 2 ^ 127) : i128Pair m = some m := by
  have hbase := abs_nonneg m.1
  have hquote := abs_nonneg m.2
  rw [moved] at h
  rw [i128Pair, i128_of_abs_lt (by linarith), i128_of_abs_lt (by linarith)]
  rfl

section Tally

variable {out : List (UInt32 × ℤ × ℤ)}

theorem moved_le_sum {d : UInt32 × ℤ × ℤ} (hd : d ∈ out) :
    moved d.2 ≤ (out.map fun d ↦ moved d.2).sum := by
  refine List.single_le_sum (fun x hx ↦ ?_) _ (List.mem_map_of_mem hd)
  obtain ⟨d', -, rfl⟩ := List.mem_map.mp hx
  exact moved_nonneg _

theorem tallyChecked_i128Pair {account : UInt32} {m : ℤ × ℤ}
    (h : (out.map fun d ↦ moved d.2).sum + moved m < 2 ^ 127) :
    tallyChecked i128Pair out account m = some (tally out account m) := by
  refine tallyChecked_eq fun d hd ↦ i128Pair_of_moved_lt ?_
  have hone := moved_le_sum hd
  have htally := sum_size_tally_le moved_add_le out account m
  linarith

theorem sumChecked_quotes (h : (out.map fun d ↦ moved d.2).sum < 2 ^ 127) :
    sumChecked 128 (out.map fun d ↦ d.2.2) = some (out.map fun d ↦ d.2.2).sum := by
  refine sumChecked_eq (lt_of_le_of_lt ?_ h)
  rw [List.map_map]
  refine List.sum_le_sum fun d _ ↦ ?_
  have hbase := abs_nonneg d.2.1
  simp only [Function.comp_apply, moved]
  linarith

theorem abs_sum_quotes_le (out : List (UInt32 × ℤ × ℤ)) :
    |(out.map fun d ↦ d.2.2).sum| ≤ (out.map fun d ↦ moved d.2).sum := by
  induction out with
  | nil => simp
  | cons d out ih =>
    have htriangle := abs_add_le d.2.2 (out.map fun d ↦ d.2.2).sum
    have hbase := abs_nonneg d.2.1
    simp only [List.map_cons, List.sum_cons, moved] at ih ⊢
    linarith

end Tally

/-! ### One entry -/

section Entry

variable (price : UInt32) (feeFlat : UInt64) (treasury scale : UInt32) (e : SettleEntry)

theorem gross_lt : (e.qty.toNat : ℤ) * price.toNat < 2 ^ 64 := by
  have hqty : e.qty.toNat < 2 ^ 32 := e.qty.toNat_lt
  have hprice : price.toNat < 2 ^ 32 := price.toNat_lt
  have := Nat.mul_lt_mul'' hqty hprice
  norm_num at this ⊢
  exact_mod_cast this

theorem notional_nonneg : 0 ≤ e.notional price scale := by
  have hpos := scale_pos scale
  have hgross : (0 : ℤ) ≤ e.qty.toNat * price.toNat := by positivity
  cases hside : e.side with
  | buy =>
    simp only [SettleEntry.notional, hside]
    exact Int.ediv_nonneg (by omega) hpos.le
  | sell =>
    simp only [SettleEntry.notional, hside]
    exact Int.ediv_nonneg hgross hpos.le

theorem notional_lt : e.notional price scale < 2 ^ 65 := by
  have hpos := scale_pos scale
  have hscale : scale.toNat < 2 ^ 32 := scale.toNat_lt
  have hgross := gross_lt price e
  have hnonneg : (0 : ℤ) ≤ e.qty.toNat * price.toNat := by positivity
  cases hside : e.side with
  | buy =>
    simp only [SettleEntry.notional, hside]
    have := Int.ediv_le_self (max (scale.toNat : ℤ) 1)
      (show (0 : ℤ) ≤ e.qty.toNat * price.toNat + max (scale.toNat : ℤ) 1 - 1 by omega)
    omega
  | sell =>
    simp only [SettleEntry.notional, hside]
    have := Int.ediv_le_self (max (scale.toNat : ℤ) 1) hnonneg
    omega

theorem notionalChecked_eq : e.notionalChecked price scale = some (e.notional price scale) := by
  have hscale : scale.toNat < 2 ^ 32 := scale.toNat_lt
  have hgross := gross_lt price e
  have hnonneg : (0 : ℤ) ≤ e.qty.toNat * price.toNat := by positivity
  have hresult := notional_lt price scale e
  have hresult' := notional_nonneg price scale e
  have hfits : ∀ x : ℤ, 0 ≤ x → x < 2 ^ 66 → i128 x = some x := fun x hx hlt ↦
    i128_of_abs_lt (by rw [abs_of_nonneg hx]; omega)
  cases hside : e.side with
  | buy =>
    simp only [SettleEntry.notional, hside] at hresult hresult'
    simp only [SettleEntry.notionalChecked, SettleEntry.notional, hside]
    rw [hfits _ hnonneg (by omega), Option.bind_eq_bind, Option.bind_some,
      hfits _ (by omega) (by omega), Option.bind_some, hfits _ (by omega) (by omega),
      Option.bind_some, Int.tdiv_eq_ediv_of_nonneg (by omega), hfits _ hresult' (by omega)]
  | sell =>
    simp only [SettleEntry.notional, hside] at hresult hresult'
    simp only [SettleEntry.notionalChecked, SettleEntry.notional, hside]
    rw [hfits _ hnonneg (by omega), Option.bind_eq_bind, Option.bind_some,
      Int.tdiv_eq_ediv_of_nonneg hnonneg, hfits _ hresult' (by omega)]

/-- The trader's change and the fee are together well below the range. -/
theorem moved_changes_lt :
    moved (e.baseChange - e.fee feeFlat, e.quoteChange price scale) + moved (e.fee feeFlat, 0) <
      2 ^ 66 := by
  have hqty : e.qty.toNat < 2 ^ 32 := e.qty.toNat_lt
  have hfee := e.fee_nonneg feeFlat
  have hcap : e.fee feeFlat ≤ e.qty.toNat := min_le_right _ _
  have hnotional := notional_lt price scale e
  have hnotional' := notional_nonneg price scale e
  simp only [moved, abs_zero, abs_of_nonneg hfee]
  cases hside : e.side with
  | buy =>
    simp only [SettleEntry.baseChange, SettleEntry.quoteChange, hside]
    rw [abs_of_nonneg (by omega), abs_neg, abs_of_nonneg hnotional']
    omega
  | sell =>
    simp only [SettleEntry.baseChange, SettleEntry.quoteChange, hside]
    rw [abs_of_nonpos (by omega), abs_of_nonneg hnotional']
    omega

/-- One entry grows the magnitudes by less than 2^66. -/
theorem sum_moved_settleStep_le (out : List (UInt32 × ℤ × ℤ)) :
    ((settleStep price feeFlat treasury scale out e).map fun d ↦ moved d.2).sum ≤
      (out.map fun d ↦ moved d.2).sum + 2 ^ 66 := by
  have hchanges := moved_changes_lt price feeFlat scale e
  have hfee := moved_nonneg (e.fee feeFlat, 0)
  have htrader := sum_size_tally_le moved_add_le out e.account
    (e.baseChange - e.fee feeFlat, e.quoteChange price scale)
  rw [settleStep_eq]
  split_ifs
  · have htreasury := sum_size_tally_le moved_add_le
      (tally out e.account (e.baseChange - e.fee feeFlat, e.quoteChange price scale)) treasury
      (e.fee feeFlat, 0)
    linarith
  · linarith

theorem changeChecked_eq :
    e.changeChecked (e.notional price scale) (e.fee feeFlat) =
      some (e.baseChange - e.fee feeFlat, e.quoteChange price scale) := by
  have hqty : e.qty.toNat < 2 ^ 32 := e.qty.toNat_lt
  have hfee := e.fee_nonneg feeFlat
  have hcap : e.fee feeFlat ≤ e.qty.toNat := min_le_right _ _
  have hnotional := notional_lt price scale e
  have hnotional' := notional_nonneg price scale e
  have hfits : ∀ x : ℤ, -2 ^ 66 ≤ x → x ≤ 2 ^ 66 → i128 x = some x := fun x hge hle ↦
    i128_of_abs_lt (lt_of_le_of_lt (abs_le.mpr ⟨hge, hle⟩) (by norm_num))
  cases hside : e.side with
  | buy =>
    simp only [SettleEntry.changeChecked, SettleEntry.baseChange, SettleEntry.quoteChange, hside]
    rw [hfits _ (by omega) (by omega), hfits _ (by omega) (by omega)]
    rfl
  | sell =>
    simp only [SettleEntry.changeChecked, SettleEntry.baseChange, SettleEntry.quoteChange, hside]
    rw [hfits _ (by omega) (by omega), Option.bind_eq_bind, Option.bind_some,
      hfits _ (by omega) (by omega), neg_add']
    rfl

theorem settleStepChecked_eq {out : List (UInt32 × ℤ × ℤ)}
    (h : (out.map fun d ↦ moved d.2).sum + 2 ^ 66 < 2 ^ 127) :
    settleStepChecked price feeFlat treasury scale out e =
      some (settleStep price feeFlat treasury scale out e) := by
  have hchanges := moved_changes_lt price feeFlat scale e
  have hfee := moved_nonneg (e.fee feeFlat, 0)
  have htrader := sum_size_tally_le moved_add_le out e.account
    (e.baseChange - e.fee feeFlat, e.quoteChange price scale)
  have hchecked : settleStepChecked price feeFlat treasury scale out e =
      (tallyChecked i128Pair out e.account
        (e.baseChange - e.fee feeFlat, e.quoteChange price scale)).bind fun out ↦
          if 0 < e.fee feeFlat then tallyChecked i128Pair out treasury (e.fee feeFlat, 0)
          else some out := by
    simp only [settleStepChecked, notionalChecked_eq, Option.bind_eq_bind, Option.bind_some]
    rw [← SettleEntry.fee, changeChecked_eq, Option.bind_some]
    rfl
  rw [hchecked, settleStep_eq, tallyChecked_i128Pair (by linarith), Option.bind_some]
  split_ifs
  · exact tallyChecked_i128Pair (by linarith)
  · rfl

end Entry

/-! ### All entries -/

section Entries

variable (price : UInt32) (feeFlat : UInt64) (treasury scale : UInt32)

theorem foldlM_settleStepChecked (entries : List SettleEntry) {out : List (UInt32 × ℤ × ℤ)}
    (h : (out.map fun d ↦ moved d.2).sum + entries.length * 2 ^ 66 < 2 ^ 127) :
    entries.foldlM (settleStepChecked price feeFlat treasury scale) out =
        some (entries.foldl (settleStep price feeFlat treasury scale) out) ∧
      ((entries.foldl (settleStep price feeFlat treasury scale) out).map fun d ↦ moved d.2).sum ≤
        (out.map fun d ↦ moved d.2).sum + entries.length * 2 ^ 66 := by
  induction entries generalizing out with
  | nil => simp
  | cons e entries ih =>
    have hstep := sum_moved_settleStep_le price feeFlat treasury scale e out
    rw [List.length_cons] at h ⊢
    push_cast at h ⊢
    obtain ⟨hrest, hmoved⟩ := @ih (settleStep price feeFlat treasury scale out e) (by linarith)
    rw [List.foldlM_cons, settleStepChecked_eq _ _ _ _ _ (by linarith), List.foldl_cons]
    exact ⟨hrest, by linarith⟩

/-- No step overflows: the machine integers compute the deltas. -/
theorem settleDeltasChecked_eq {entries : List SettleEntry} (h : entries.length < 2 ^ 32) :
    settleDeltasChecked price entries feeFlat treasury scale =
      some (settleDeltas price entries feeFlat treasury scale) := by
  have hcount : (entries.length : ℤ) * 2 ^ 66 < 2 ^ 32 * 2 ^ 66 := by
    have : (entries.length : ℤ) < 2 ^ 32 := by exact_mod_cast h
    linarith
  obtain ⟨hfold, hmoved⟩ := @foldlM_settleStepChecked price feeFlat treasury scale entries []
    (by norm_num at hcount ⊢; linarith)
  simp only [settleDeltasChecked, settleDeltas, hfold, Option.bind_eq_bind, Option.bind_some]
  set out := entries.foldl (settleStep price feeFlat treasury scale) [] with hout
  have hsmall : (out.map fun d ↦ moved d.2).sum < 2 ^ 98 := by
    norm_num at hmoved hcount ⊢
    linarith
  have hresid : |(out.map fun d ↦ d.2.2).sum| ≤ (out.map fun d ↦ moved d.2).sum :=
    abs_sum_quotes_le out
  rw [sumChecked_quotes (by linarith), Option.bind_some]
  split_ifs with hzero
  · rw [i128_of_abs_lt (by rw [abs_neg]; linarith), Option.bind_some]
    refine tallyChecked_i128Pair ?_
    simp only [moved, abs_zero, abs_neg, zero_add] at hsmall hresid ⊢
    linarith
  · rfl

end Entries

/-- A settlement moves value and creates none. Whatever the price, the scale, the flat fee, the
treasury and the entries, each account has one delta and the quote deltas cancel; fewer than 2^32
entries overflow no `i128`. When as much is bought as is sold, the base deltas cancel too, and a
treasury that trades nothing collects the fee of every entry, capped at its fill, and quote dust of
less than one unit per entry. -/
theorem settleDeltas_moves_value (price : UInt32) (entries : List SettleEntry) (feeFlat : UInt64)
    (treasury scale : UInt32) :
    ((settleDeltas price entries feeFlat treasury scale).map Prod.fst).Nodup ∧
      ((settleDeltas price entries feeFlat treasury scale).map fun d ↦ d.2.2).sum = 0 ∧
      (entries.length < 2 ^ 32 → settleDeltasChecked price entries feeFlat treasury scale =
        some (settleDeltas price entries feeFlat treasury scale)) ∧
      (((entries.filter fun e ↦ e.side == .buy).map fun e ↦ e.qty.toNat).sum =
          ((entries.filter fun e ↦ e.side == .sell).map fun e ↦ e.qty.toNat).sum →
        ((settleDeltas price entries feeFlat treasury scale).map fun d ↦ d.2.1).sum = 0 ∧
        ((∀ e ∈ entries, e.account ≠ treasury) →
          (amount (settleDeltas price entries feeFlat treasury scale) treasury).1 =
              (entries.map fun e ↦ min (feeFlat.toNat : ℤ) e.qty.toNat).sum ∧
            0 ≤ (amount (settleDeltas price entries feeFlat treasury scale) treasury).2 ∧
            (entries ≠ [] →
              (amount (settleDeltas price entries feeFlat treasury scale) treasury).2 <
              entries.length) ∧
            (entries = [] →
              (amount (settleDeltas price entries feeFlat treasury scale) treasury).2 = 0))) := by
  have hsum := sum_settleDeltas price feeFlat treasury scale entries
  have hparts : ∀ out : List (UInt32 × ℤ × ℤ), (out.map Prod.snd).sum =
      ((out.map fun d ↦ d.2.1).sum, (out.map fun d ↦ d.2.2).sum) := by
    intro out
    induction out with
    | nil => rfl
    | cons d out ih => simp only [List.map_cons, List.sum_cons, ih, Prod.ext_iff, Prod.fst_add,
        Prod.snd_add, and_self]
  rw [hparts, Prod.mk.injEq] at hsum
  refine ⟨nodup_settleDeltas price feeFlat treasury scale entries, hsum.2,
    settleDeltasChecked_eq price feeFlat treasury scale, fun hbalanced ↦ ?_⟩
  have hbase : (entries.map SettleEntry.baseChange).sum = 0 := by
    rw [sum_baseChange, hbalanced, sub_self]
  refine ⟨hsum.1.trans hbase, fun htreasury ↦ ?_⟩
  rw [amount_treasury_settleDeltas price feeFlat treasury scale htreasury]
  have hdust := sum_quoteChange_nonpos price scale hbase
  refine ⟨rfl, neg_nonneg.mpr hdust, fun hne ↦ ?_, ?_⟩
  · have hlt := neg_length_lt_sum_quoteChange price scale hne hbase
    exact neg_lt.mp hlt
  · rintro rfl
    rfl

/-- One unit sold to two buyers of a third and two thirds, at 1.0001. -/
theorem settleDeltas_moves_value_three :
    amount (settleDeltas 10001 [⟨1, .buy, 3333⟩, ⟨2, .buy, 6667⟩, ⟨3, .sell, 10000⟩] 5 0 10000) 0 =
        (15, 1) ∧
      (amount (settleDeltas 10001 [⟨1, .buy, 3333⟩, ⟨2, .buy, 6667⟩, ⟨3, .sell, 10000⟩] 5 0 10000)
        0).2 < 3 := by
  have hvalue := settleDeltas_moves_value 10001
    [⟨1, .buy, 3333⟩, ⟨2, .buy, 6667⟩, ⟨3, .sell, 10000⟩] 5 0 10000
  constructor
  · decide +kernel
  · exact ((hvalue.2.2.2 (by decide)).2 (by decide)).2.2.1 (by simp)

end Jamswap.Engine
