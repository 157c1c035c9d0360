import Jamswap.Builder.Drafts
import Jamswap.Builder.Encoding
import Jamswap.Builder.Lifecycle
import Jamswap.Service.Acceptance
import Jamswap.Service.StoredWords

/-!
# The seq filter

The service walks the bindings of a round with a running floor per account and refuses the round at
the first seq that does not rise above it. `seqSanitize` sorts the orders of a batch by account and
seq and walks them the same way, so what it keeps passes that check, and it gives up nothing: an
order is dropped only when the chain has moved past its seq or when a kept order of its account
carries the same seq. No other choice of orders, in any order, passes with more of them
(`seqSanitize_exact`).
-/

namespace Jamswap.Builder

open Library Engine Service Prog

/-! ### The walk on a chain state -/

/-- `sanitizeEach` with the floors of one chain state. -/
def sanitizeWalk (floor : UInt32 → ℕ) :
    List Order → (UInt32 → Option ℕ) → List Order × List (Order × Dead)
  | [], _ => ([], [])
  | o :: orders, run =>
    if o.seq.toNat ≤ floor o.account then
      let out := sanitizeWalk floor orders run
      (out.1, (o, .superseded (floor o.account) o.seq.toNat) :: out.2)
    else if o.seq.toNat ≤ (run o.account).getD (floor o.account) then
      let out := sanitizeWalk floor orders run
      (out.1, (o, .duplicate o.seq.toNat) :: out.2)
    else
      let out := sanitizeWalk floor orders (Function.update run o.account (some o.seq.toNat))
      (o :: out.1, out.2)

theorem sanitizeEach_on (H : Host) (st : Storage) (orders : List Order)
    {floors : UInt32 → Option ℕ} (run : UInt32 → Option ℕ)
    (hfloors : ∀ account floor, floors account = some floor →
      floor = leValue (st.getD (.sq account))) (n : ℕ) (s : State) :
    (sanitizeEach (H.on st) orders floors run n s).1 =
      some (sanitizeWalk (fun account ↦ leValue (st.getD (.sq account))) orders run) := by
  induction orders generalizing floors run n s with
  | nil => rfl
  | cons o orders ih =>
    have hfloors' : ∀ account floor, Function.update floors o.account
        (some (leValue (st.getD (.sq o.account)))) account = some floor →
          floor = leValue (st.getD (.sq account)) := by
      intro account floor h
      rw [Function.update_apply] at h
      split_ifs at h with haccount
      · rw [haccount]
        exact (Option.some.inj h).symm
      · exact hfloors account floor h
    unfold sanitizeEach sanitizeWalk
    apply value_bind (a := leValue (st.getD (.sq o.account)))
    · cases hread : floors o.account with
      | some floor =>
        rw [hfloors _ _ hread]
        rfl
      | none => rfl
    · intro n s
      split_ifs
      · exact value_bind (ih _ hfloors' _ _) fun _ _ ↦ rfl
      · exact value_bind (ih _ hfloors' _ _) fun _ _ ↦ rfl
      · exact value_bind (ih _ hfloors' _ _) fun _ _ ↦ rfl

variable {orders : List Order} {st : Storage} {lastPrice : UInt64} {bandPct : ℕ}

section Walk

variable {floor : UInt32 → ℕ}

/-- Every order is kept or dead. -/
theorem sanitizeWalk_perm (orders : List Order) (run : UInt32 → Option ℕ) :
    ((sanitizeWalk floor orders run).1 ++ (sanitizeWalk floor orders run).2.map Prod.fst).Perm
      orders := by
  induction orders generalizing run with
  | nil => exact List.Perm.nil
  | cons o orders ih =>
    unfold sanitizeWalk
    split_ifs
    · exact List.perm_middle.trans ((ih _).cons o)
    · exact List.perm_middle.trans ((ih _).cons o)
    · exact (ih _).cons o

/-- Why an order is dead: the floor has passed it, or a kept order carries its seq. -/
def Lost (floor : UInt32 → ℕ) (kept : List Order) (d : Order × Dead) : Prop :=
  d.2 = .superseded (floor d.1.account) d.1.seq.toNat ∧ d.1.seq.toNat ≤ floor d.1.account ∨
    d.2 = .duplicate d.1.seq.toNat ∧ ∃ o ∈ kept, o.account = d.1.account ∧ o.seq = d.1.seq

/-- On orders with ascending seqs the walk drops nothing but what is lost. The running floors are
those of the orders kept before. -/
theorem sanitizeWalk_lost (before : List Order) {run : UInt32 → Option ℕ}
    (hsorted : orders.Pairwise fun a b ↦ a.account = b.account → a.seq ≤ b.seq)
    (hrun : ∀ account seq, run account = some seq →
      ∃ x ∈ before, x.account = account ∧ x.seq.toNat = seq)
    (hlater : ∀ o ∈ orders, ∀ seq, run o.account = some seq → seq ≤ o.seq.toNat) :
    ∀ d ∈ (sanitizeWalk floor orders run).2,
      Lost floor (before ++ (sanitizeWalk floor orders run).1) d := by
  induction orders generalizing run before with
  | nil =>
    intro d hd
    cases hd
  | cons o orders ih =>
    obtain ⟨hfirst, hsorted⟩ := List.pairwise_cons.mp hsorted
    have hrest := ih before hsorted hrun fun x hx ↦ hlater x (List.mem_cons_of_mem o hx)
    unfold sanitizeWalk
    split_ifs with hpassed hduplicate
    · exact List.forall_mem_cons.mpr ⟨Or.inl ⟨rfl, hpassed⟩, hrest⟩
    · refine List.forall_mem_cons.mpr ⟨Or.inr ⟨rfl, ?_⟩, hrest⟩
      cases hseq : run o.account with
      | none =>
        rw [hseq] at hduplicate
        exact absurd hduplicate hpassed
      | some seq =>
        -- an order of the account was kept, and this one does not rise above it
        obtain ⟨x, hx, haccount, hsame⟩ := hrun _ _ hseq
        rw [hseq, Option.getD_some] at hduplicate
        have hle := hlater o List.mem_cons_self seq hseq
        refine ⟨x, List.mem_append_left _ hx, haccount, ?_⟩
        rw [← UInt64.toNat_inj, hsame]
        exact le_antisymm hle hduplicate
    · have hkept := @ih (before ++ [o]) (Function.update run o.account (some o.seq.toNat)) hsorted
        (fun account seq hseq ↦ ?_) fun x hx seq hseq ↦ ?_
      · simpa only [List.append_assoc, List.singleton_append] using hkept
      · rw [Function.update_apply] at hseq
        split_ifs at hseq with haccount
        · exact ⟨o, by simp, haccount.symm, Option.some.inj hseq⟩
        · obtain ⟨x, hx, hsame⟩ := hrun account seq hseq
          exact ⟨x, List.mem_append_left _ hx, hsame⟩
      · rw [Function.update_apply] at hseq
        split_ifs at hseq with haccount
        · rw [← Option.some.inj hseq]
          exact UInt64.le_iff_toNat_le.mp (hfirst x hx haccount.symm)
        · exact hlater x (List.mem_cons_of_mem o hx) seq hseq

end Walk

/-! ### Sorting -/

theorem pairwise_seqSorted (orders : List Order) :
    (orders.insertionSort fun a b ↦
      a.account < b.account ∨ (a.account = b.account ∧ a.seq ≤ b.seq)).Pairwise
        fun a b ↦ a.account = b.account → a.seq ≤ b.seq := by
  set le : Order → Order → Prop := fun a b ↦
    a.account < b.account ∨ (a.account = b.account ∧ a.seq ≤ b.seq) with hle
  have htotal : Std.Total le := ⟨fun a b ↦ by
    simp only [hle, UInt32.lt_iff_toNat_lt, UInt64.le_iff_toNat_le, ← UInt32.toNat_inj]
    omega⟩
  have htrans : IsTrans Order le := ⟨fun a b c hab hbc ↦ by
    simp only [hle, UInt32.lt_iff_toNat_lt, UInt64.le_iff_toNat_le, ← UInt32.toNat_inj] at *
    omega⟩
  refine (List.pairwise_insertionSort le orders).imp fun {a b} hab haccount ↦ ?_
  rcases hab with hlt | ⟨-, hseq⟩
  · rw [haccount] at hlt
    exact absurd hlt (UInt32.lt_irrefl _)
  · exact hseq

/-! ### The filter against the service's check -/

/-- What the service checks of an order besides its seq: the key, and a market order's band. -/
def Order.Admitted (st : Storage) (lastPrice : UInt64) (bandPct : ℕ) (o : Order) : Prop :=
  BindingAdmitted st lastPrice bandPct o.binding

/-- Orders above their floors and ascending in each account are refused for no seq. -/
theorem checkBindings_isSome_iff {kept : List Order}
    (habove : ∀ o ∈ kept, getU64 st (.sq o.account) < o.seq)
    (hincreasing : kept.Pairwise fun a b ↦ a.account = b.account → a.seq < b.seq) :
    (checkBindings (kept.map Order.binding) st lastPrice bandPct).isSome = true ↔
      ∀ o ∈ kept, o.Admitted st lastPrice bandPct := by
  constructor
  · intro h
    obtain ⟨floors, hfloors⟩ := Option.isSome_iff_exists.mp h
    intro o ho
    exact (bindingsAdmitted_of_checkBindings hfloors).each _ (List.mem_map_of_mem ho)
  · intro heach
    obtain ⟨floors, hfloors⟩ := foldlM_checkBinding []
      (List.forall_mem_map.mpr heach) (List.forall_mem_map.mpr habove)
      (List.pairwise_map.mpr hincreasing)
    rw [checkBindings, hfloors]
    rfl

/-- Orders that pass have distinct seqs in each account, all above its floor. -/
theorem nodup_of_checkBindings
    (h : (checkBindings (orders.map Order.binding) st lastPrice bandPct).isSome = true) :
    (orders.map fun o ↦ (o.account, o.seq)).Nodup ∧
      ∀ o ∈ orders, getU64 st (.sq o.account) < o.seq := by
  obtain ⟨floors, hfloors⟩ := Option.isSome_iff_exists.mp h
  have hadmitted := bindingsAdmitted_of_checkBindings hfloors
  constructor
  · have hincreasing : orders.Pairwise fun a b ↦ a.account = b.account → a.seq < b.seq :=
      List.pairwise_map.mp hadmitted.increasing
    rw [List.Nodup, List.pairwise_map]
    refine hincreasing.imp fun {a b} hlt heq ↦ ?_
    obtain ⟨haccount, hseq⟩ := Prod.mk.inj heq
    have hbelow := hlt haccount
    rw [hseq] at hbelow
    exact UInt64.lt_irrefl _ hbelow
  · intro o ho
    exact hadmitted.above o.binding (List.mem_map_of_mem ho)

/-- The seq filter is exact. On any chain state it divides the orders into kept and dead; the kept
ones, in the order returned, are refused for no seq; a dead order is at or below its account's floor
or repeats the seq of a kept order of its account; and no other selection that passes the service's
check, in whatever order, has more orders. -/
theorem seqSanitize_exact (H : Host) {st : Storage} (hwords : StoredWords st) (orders : List Order)
    (n : ℕ) (s : State) :
    ∃ kept dead, (seqSanitize (H.on st) orders n s).1 = some (kept, dead) ∧
      (kept ++ dead.map Prod.fst).Perm orders ∧
      (∀ lastPrice bandPct,
        (checkBindings (kept.map Order.binding) st lastPrice bandPct).isSome = true ↔
          ∀ o ∈ kept, o.Admitted st lastPrice bandPct) ∧
      (∀ d ∈ dead, Lost (fun account ↦ leValue (st.getD (.sq account))) kept d) ∧
      ∀ (other : List Order) lastPrice bandPct, other.Subperm orders →
        (checkBindings (other.map Order.binding) st lastPrice bandPct).isSome = true →
          other.length ≤ kept.length := by
  set sorted := orders.insertionSort fun a b ↦
    a.account < b.account ∨ (a.account = b.account ∧ a.seq ≤ b.seq) with hsorted
  set out := sanitizeWalk (fun account ↦ leValue (st.getD (.sq account))) sorted fun _ ↦ none
    with hout
  have hreturned : (seqSanitize (H.on st) orders n s).1 = some out :=
    sanitizeEach_on H st sorted _ (fun account floor h ↦ by cases h) n s
  have hfloor : ∀ account, (getU64 st (.sq account)).toNat = leValue (st.getD (.sq account)) :=
    fun account ↦ toNat_getU64 hwords (Or.inl ⟨_, rfl⟩)
  obtain ⟨-, habove, hincreasing⟩ := seqSanitize_returns (H.reads_on st) orders n s out hreturned
  have hperm : (out.1 ++ out.2.map Prod.fst).Perm orders :=
    (sanitizeWalk_perm sorted _).trans (List.perm_insertionSort _ _)
  have hlost : ∀ d ∈ out.2, Lost (fun account ↦ leValue (st.getD (.sq account))) out.1 d :=
    sanitizeWalk_lost [] (pairwise_seqSorted orders) (fun _ _ h ↦ by cases h)
      fun _ _ _ h ↦ by cases h
  refine ⟨out.1, out.2, hreturned, hperm, fun lastPrice bandPct ↦ ?_, hlost, ?_⟩
  · refine checkBindings_isSome_iff (fun o ho ↦ ?_) hincreasing
    obtain ⟨v, rfl, hlt⟩ := habove o ho
    rw [UInt64.lt_iff_toNat_lt, hfloor]
    exact hlt
  · intro other lastPrice bandPct hsub hpasses
    obtain ⟨hnodup, hover⟩ := nodup_of_checkBindings hpasses
    have hcovered : (other.map fun o ↦ (o.account, o.seq)) ⊆
        out.1.map fun o ↦ (o.account, o.seq) := by
      intro p hp
      obtain ⟨o, ho, rfl⟩ := List.mem_map.mp hp
      rcases List.mem_append.mp (hperm.mem_iff.mpr (hsub.subset ho)) with hkept | hdead
      · exact List.mem_map_of_mem hkept
      · obtain ⟨d, hd, rfl⟩ := List.mem_map.mp hdead
        rcases hlost d hd with ⟨-, hpassed⟩ | ⟨-, x, hx, haccount, hseq⟩
        · have hlt := UInt64.lt_iff_toNat_lt.mp (hover _ ho)
          rw [hfloor] at hlt
          exact absurd hpassed (Nat.not_le.mpr hlt)
        · rw [← haccount, ← hseq]
          exact List.mem_map_of_mem hx
    have hlength := (hnodup.subperm hcovered).length_le
    rwa [List.length_map, List.length_map] at hlength

/-- A chain whose account 5 has its floor at seq 3. -/
def flooredStorage : Storage := Storage.set Store.empty (.sq 5) (u64Bytes 3)

/-- An order of account 5 with the given seq. -/
def seqOrder (seq : UInt64) : Order :=
  { ref := 0, account := 5, oid := 1000, side := .buy, price := 100, qty := 1, seq := seq }

theorem seqSanitize_exact_floored :
    ∃ kept dead, (seqSanitize ((sampleHost (fun _ ↦ 0) fun _ ↦ false).on flooredStorage)
        [seqOrder 7, seqOrder 4, seqOrder 3, seqOrder 4] 0 {}).1 = some (kept, dead) ∧
      kept.map Order.seq = [4, 7] ∧ dead.map (fun d ↦ d.1.seq) = [3, 4] ∧
      ∀ (other : List Order) lastPrice bandPct,
        other.Subperm [seqOrder 7, seqOrder 4, seqOrder 3, seqOrder 4] →
        (checkBindings (other.map Order.binding) flooredStorage lastPrice bandPct).isSome = true →
          other.length ≤ 2 := by
  have hwords : StoredWords flooredStorage := storedWords_empty.set _ (by decide)
  obtain ⟨kept, dead, hreturned, -, -, -, hmost⟩ := seqSanitize_exact
    (sampleHost (fun _ ↦ 0) fun _ ↦ false) hwords
    [seqOrder 7, seqOrder 4, seqOrder 3, seqOrder 4] 0 {}
  have hout : ((seqSanitize ((sampleHost (fun _ ↦ 0) fun _ ↦ false).on flooredStorage)
      [seqOrder 7, seqOrder 4, seqOrder 3, seqOrder 4] 0 {}).1.map fun out ↦
        (out.1.map Order.seq, out.2.map fun d ↦ d.1.seq)) = some ([4, 7], [3, 4]) := by
    decide +kernel
  rw [hreturned, Option.map_some] at hout
  obtain ⟨hkept, hdead⟩ := Prod.mk.inj (Option.some.inj hout)
  refine ⟨kept, dead, hreturned, hkept, hdead, fun other lastPrice bandPct hsub hpasses ↦ ?_⟩
  calc other.length ≤ kept.length := hmost other lastPrice bandPct hsub hpasses
    _ = (kept.map Order.seq).length := (List.length_map _).symm
    _ = 2 := by rw [hkept]; rfl

end Jamswap.Builder
