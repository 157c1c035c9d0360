import Jamswap.Service.Remainders

/-!
# The carry list of a round

Refine lists an account for a carry credit once per remainder whose id is that of a sealed order.
`CarryWithin` says that no account is listed more often than it has sealed orders with a quantity
left; it holds for every round with given labels exactly when no public order shares an id with a
sealed one and the sealed ids are distinct, or nothing can trade (`carryWithin_iff`).
-/

namespace Jamswap.Service

open Library Engine

variable {P : Primitives}

/-- The positions of the sealed orders in the batch. -/
def sealedRefs (inp : RoundInput) : List OrderRef :=
  (refs inp.orders).drop inp.publicOrders.length

/-- An account's sealed orders that the round leaves with a non-zero remainder. -/
def leftSealed (P : Primitives) (inp : RoundInput) (account : UInt32) : ℕ :=
  (sealedRefs inp).countP fun r ↦
    r.order.account == account && decide (allotted P inp.orders r.index < r.units)

/-- No account is listed for more credits than it has sealed remainders. -/
def CarryWithin (P : Primitives) (inp : RoundInput) (r : RoundOutput) : Prop :=
  ∀ account, (Carry.accounts r.carry).count account ≤ leftSealed P inp account

/-- The ids for which the carry list is within bounds. -/
def CarryIdsSafe (pub hidden : List Label) : Prop :=
  IdsApart pub hidden ∧ ((hidden.map Label.id).Nodup ∨ OneSided (pub ++ hidden))

/-- The listed accounts; a round without sealed orders lists none. -/
theorem accounts_sections (P : Primitives) (inp : RoundInput) (rid : Bytes32) :
    Carry.accounts (inp.sections P rid).carry =
      ((resting inp.orders (clear P inp.orders)).filter (isSealedId inp.sealedOrders)).map
        Order.account := by
  cases hkind : inp.kind with
  | smatch =>
    have hnone : inp.sealedOrders = [] := by rw [RoundInput.sealedOrders, hkind]; rfl
    have hempty : (resting inp.orders (clear P inp.orders)).filter (isSealedId inp.sealedOrders) =
        [] := by
      rw [hnone]
      exact List.filter_eq_nil_iff.mpr fun o _ ↦ by simp [isSealedId]
    rw [hempty]
    simp [RoundInput.sections, hkind, Carry.accounts]
  | reveal | encRound =>
    simp only [RoundInput.sections, hkind]
    exact Carry.accounts_flatMap _

theorem map_order_sealedRefs (inp : RoundInput) :
    (sealedRefs inp).map OrderRef.order = inp.sealedOrders := by
  rw [sealedRefs, List.map_drop, map_order_refs, RoundInput.orders, List.drop_left]

variable {inp : RoundInput} {pub hidden : List Label}

theorem mem_sealedRefs {r : OrderRef} (h : r ∈ sealedRefs inp) :
    r ∈ refs inp.orders ∧ inp.publicOrders.length ≤ r.index := by
  refine ⟨List.mem_of_mem_drop h, ?_⟩
  have hindex : r.index ∈ (List.range inp.orders.length).drop inp.publicOrders.length := by
    rw [← map_index_refs, ← List.map_drop]
    exact List.mem_map_of_mem h
  obtain ⟨k, hk⟩ := List.mem_iff_getElem?.mp hindex
  rw [List.getElem?_drop] at hk
  obtain ⟨hlt, hval⟩ := List.getElem?_eq_some_iff.mp hk
  rw [List.getElem_range] at hval
  omega

/-- With safe ids, the remainders on the carry list are the sealed orders' own. -/
theorem remainderOwn_sealed (hlen : inp.orders.length ≤ 2 ^ 32)
    (hsafe : CarryIdsSafe (inp.publicOrders.map Order.label) (inp.sealedOrders.map Order.label)) :
    ∀ r ∈ sealedRefs inp, RemainderOwn P inp.orders r := by
  intro r hr
  have hlabels : inp.orders.map Order.label =
      inp.publicOrders.map Order.label ++ inp.sealedOrders.map Order.label := List.map_append
  obtain ⟨hmem, hge⟩ := mem_sealedRefs hr
  obtain ⟨hapart, hnodup | hside⟩ := hsafe
  · refine remainderOwn_of_unique hlen hmem fun j l hj hid ↦ ?_
    have hi := getElem?_label hmem
    rw [hlabels] at hi hj
    exact index_eq_of_id_eq_hidden hapart hnodup hi (by simpa using hge) hj hid
  · rw [← hlabels] at hside
    exact remainderOwn_of_allocation_nil (allocation_of_oneSided hside) r

/-- Remainders that are the orders' own list each account once per sealed order left over. -/
theorem count_resting_sealed (hown : ∀ r ∈ sealedRefs inp, RemainderOwn P inp.orders r)
    (account : UInt32) :
    ((resting inp.sealedOrders (clear P inp.orders)).map Order.account).count account =
      leftSealed P inp account := by
  have hfilter : ((resting inp.sealedOrders (clear P inp.orders)).map Order.account) =
      (inp.sealedOrders.filter fun o ↦
        decide (0 < o.remainder (clear P inp.orders).fills)).map Order.account := by
    unfold resting
    induction inp.sealedOrders with
    | nil => rfl
    | cons o os ih =>
      by_cases hrem : 0 < o.remainder (clear P inp.orders).fills
      · simp [hrem, ih]
      · simp [hrem, ih]
  rw [hfilter, List.count_eq_countP, List.countP_map, List.countP_filter, ← map_order_sealedRefs,
    List.countP_map, leftSealed]
  refine List.countP_congr fun r hr ↦ ?_
  have hleft := hown r hr
  rw [RemainderOwn] at hleft
  have hpos : 0 < r.order.remainder (clear P inp.orders).fills ↔
      allotted P inp.orders r.index < r.units := by
    rw [UInt64.lt_iff_toNat_lt, hleft]
    exact Nat.sub_pos_iff_lt
  simp [hpos]

theorem carryWithin_of_safe {payload : WorkPayload} (hinput : roundInput P payload.val = some inp)
    (hsafe : CarryIdsSafe (inp.publicOrders.map Order.label) (inp.sealedOrders.map Order.label))
    (rid : Bytes32) : CarryWithin P inp (inp.sections P rid) := by
  intro account
  have hlen := ((roundInput_spec hinput).orders_length_lt payload.property).le
  rw [accounts_sections, RoundInput.orders, filter_resting_hidden _ hsafe.1]
  exact (count_resting_sealed (remainderOwn_sealed hlen hsafe) account).le

/-! ### Ids that list too many -/

/-- A remainder under a sealed id lists its account. -/
theorem mem_accounts_of_remainder {o s : Order} (ho : o ∈ inp.orders)
    (hrem : 0 < o.remainder (clear P inp.orders).fills) (hs : s ∈ inp.sealedOrders)
    (hid : s.id = o.id) (rid : Bytes32) :
    o.account ∈ Carry.accounts (inp.sections P rid).carry := by
  rw [accounts_sections]
  refine List.mem_map.mpr ⟨_, List.mem_filter.mpr ⟨mem_resting_of_remainder ho hrem, ?_⟩, rfl⟩
  exact List.any_eq_true.mpr ⟨s, hs, beq_iff_eq.mpr hid⟩

/-- An account listed without a sealed remainder exceeds the bound. -/
theorem not_carryWithin {r : RoundOutput} {account : UInt32}
    (hlisted : account ∈ Carry.accounts r.carry) (hnone : leftSealed P inp account = 0) :
    ¬ CarryWithin P inp r := by
  intro hwithin
  have hle := hwithin account
  rw [hnone] at hle
  exact absurd (List.count_pos_iff.mpr hlisted) (Nat.not_lt.mpr hle)

theorem exists_unearned_of_not_apart (P : Primitives) (hfit : probeRoundLen pub hidden ≤ maxInput)
    (hapart : ¬ IdsApart pub hidden) :
    ∃ (payload : WorkPayload) (inp : RoundInput), roundInput P payload.val = some inp ∧
      inp.publicOrders.map Order.label = pub ∧ inp.sealedOrders.map Order.label = hidden ∧
      ¬ CarryWithin P inp (inp.sections P (roundId P payload.val)) := by
  simp only [IdsApart, not_forall, not_not] at hapart
  obtain ⟨l, hl, l', hl', hid⟩ := hapart
  obtain ⟨i, hi⟩ := List.mem_iff_getElem?.mp hl
  have hlt : i < pub.length := (List.getElem?_eq_some_iff.mp hi).1
  have hat : (pub ++ hidden)[i]? = some l := by rw [List.getElem?_append_left hlt, hi]
  obtain ⟨payload, inp, hinput, horders, hpub, hhidden⟩ := exists_probeRound P hfit [(i, 1)]
  refine ⟨payload, inp, hinput, hpub, hhidden, ?_⟩
  have hnil : allocation P inp.orders = [] := by
    rw [horders]
    exact allocation_probe_single P hat
  set o : Order := ⟨l.account, l.id, l.side, 1, 1⟩
  have ho : o ∈ inp.orders := by
    have hprobe := getElem?_probe [(i, 1)] hat
    rw [← horders] at hprobe
    exact List.mem_of_getElem? (by simpa [amount_cons] using hprobe)
  have hrem : 0 < o.remainder (clear P inp.orders).fills := by
    rw [Order.remainder, filledUnder_of_allocation_nil hnil]
    change 0 < (1 : UInt32).toUInt64 - 0
    decide
  obtain ⟨s, hs, hlabel⟩ := List.mem_map.mp (hhidden ▸ hl')
  have hsid : s.id = o.id := (congrArg Label.id hlabel).trans hid
  refine not_carryWithin (mem_accounts_of_remainder ho hrem hs hsid _) ?_
  -- only the public order at position `i` offers anything
  refine List.countP_eq_zero.mpr fun r hr ↦ ?_
  obtain ⟨hmem, hge⟩ := mem_sealedRefs hr
  have hne : i ≠ r.index := by
    rw [← List.length_map Order.label, hpub] at hge
    omega
  have hzero : r.units = 0 := by
    rw [horders] at hmem
    rw [units_probe (by simp) hmem]
    simp [amount_cons, hne]
  simp [hzero]

theorem exists_unearned_of_not_nodup (P : Primitives) (hfit : probeRoundLen pub hidden ≤ maxInput)
    (hnodup : ¬ (hidden.map Label.id).Nodup) (hsides : ¬ OneSided (pub ++ hidden)) :
    ∃ (payload : WorkPayload) (inp : RoundInput), roundInput P payload.val = some inp ∧
      inp.publicOrders.map Order.label = pub ∧ inp.sealedOrders.map Order.label = hidden ∧
      ¬ CarryWithin P inp (inp.sections P (roundId P payload.val)) := by
  obtain ⟨i, j, l, l', hij, hi, hj, hid⟩ := exists_positions_of_not_nodup hnodup
  have hat : ∀ {k : ℕ} {l : Label}, hidden[k]? = some l →
      (pub ++ hidden)[pub.length + k]? = some l := by
    intro k l hk
    rw [List.getElem?_append_right (Nat.le_add_right _ _), Nat.add_sub_cancel_left, hk]
  obtain ⟨payload, inp, o, hinput, hpub, hhidden, hfilled, hget, hrem⟩ :=
    exists_overfilled_round P hfit (hat hi) (hat hj) (by omega) hid hsides
  refine ⟨payload, inp, hinput, hpub, hhidden, ?_⟩
  have ho : o ∈ inp.sealedOrders := by
    have hlen : inp.publicOrders.length = pub.length := by rw [← hpub, List.length_map]
    rw [RoundInput.orders, List.getElem?_append_right (by omega), hlen,
      Nat.add_sub_cancel_left] at hget
    exact List.mem_of_getElem? hget
  refine not_carryWithin
    (mem_accounts_of_remainder (List.mem_of_getElem? hget) hrem ho rfl _) ?_
  refine List.countP_eq_zero.mpr fun r hr ↦ ?_
  simp [hfilled r (mem_sealedRefs hr).1]

/-- The carry list is within bounds, for every round that carries these labels, exactly when the ids
are safe. -/
theorem carryWithin_iff (P : Primitives) (hfit : probeRoundLen pub hidden ≤ maxInput) :
    (∀ (payload : WorkPayload) (inp : RoundInput), roundInput P payload.val = some inp →
        inp.publicOrders.map Order.label = pub → inp.sealedOrders.map Order.label = hidden →
          CarryWithin P inp (inp.sections P (roundId P payload.val))) ↔
      CarryIdsSafe pub hidden := by
  constructor
  · intro hall
    by_contra hunsafe
    by_cases hapart : IdsApart pub hidden
    · rw [CarryIdsSafe, not_and, not_or] at hunsafe
      obtain ⟨hnodup, hsides⟩ := hunsafe hapart
      obtain ⟨payload, inp, hinput, hpub, hhidden, hwrong⟩ :=
        exists_unearned_of_not_nodup P hfit hnodup hsides
      exact hwrong (hall payload inp hinput hpub hhidden)
    · obtain ⟨payload, inp, hinput, hpub, hhidden, hwrong⟩ :=
        exists_unearned_of_not_apart P hfit hapart
      exact hwrong (hall payload inp hinput hpub hhidden)
  · rintro hsafe payload inp hinput rfl rfl
    exact carryWithin_of_safe hinput hsafe _

end Jamswap.Service
