import Jamswap.Builder.RoundTrip

/-!
# The orders a builder holds

A draft is read back by the service only if its orders are what the door and `_seal_material` make
them: public orders carry a signature, sealed ones the material that hides their own terms, and an
object in place of another is an order of the same type. `State.Sound` says this of every order of a
state, wherever it is: queued, in a record, in a build's hands or waiting to be re-sealed. Every
program keeps it, so it holds throughout a run (`sound_run`).

Records are followed too: what `_round_dead` reads of a record (`Round.judged`) is set when the
round is registered and never changes.
-/

namespace Jamswap.Builder

open Library Engine Service Prog

/-! ### Sound orders -/

/-- What an order object keeps through every change. -/
structure Identity where
  ref : ℕ
  sealed : Bool
  otype : OrderType
  pair : Pair
  seq : UInt64
  deriving DecidableEq

def Order.identity (o : Order) : Identity := ⟨o.ref, o.sealed, o.otype, o.pair, o.seq⟩

/-- An order that may be drafted into a round. -/
structure Order.Queueable (H : Host) (o : Order) : Prop where
  sig : o.sealed = false → o.sig.length = 64
  hidden : o.sealed = true → o.Hidden H

/-- A remainder that may be re-sealed: hidden once it has a commitment. -/
structure Order.Resealable (H : Host) (o : Order) : Prop where
  isSealed : o.sealed = true
  hidden : o.commit ≠ none → o.Hidden H

/-- What is read of a record to judge it. -/
structure Judged where
  rid : Bytes32
  bookHash : Bytes32
  consumed : List Bytes
  setKey : Key
  minseq : List (UInt32 × UInt64)

def Round.judged (r : Round) : Judged := ⟨r.rid, r.bookHash, r.consumed, r.setKey, r.minseq⟩

/-- What is asked of the orders and of the records of a state. -/
structure Demands where
  name : Pair → Prop
  signed : Pair → UInt64 → Prop
  judged : Judged → Prop

/-- An order is under an admitted name, a public one with the seq its owner signed. -/
def Demands.Admits (J : Demands) (i : Identity) : Prop :=
  J.name i.pair ∧ (i.sealed = false → J.signed i.pair i.seq)

/-- The orders that may still be drafted. -/
def State.stock (s : State) : List Order :=
  s.pending ++ s.records.flatMap Round.orders ++ s.unsent

def State.identities (s : State) : List Identity := (s.stock ++ s.carryRetry).map Order.identity

/-- Every order of the state is sound, one identity has one kind of order, and orders and records
meet the demands `J`. The orders a program has in its own hands count with their identities,
`loose`. -/
structure State.Sound (H : Host) (J : Demands) (loose : List Identity) (s : State) : Prop where
  numbered : ∀ i ∈ s.identities ++ loose, i.ref < s.serials
  distinct : ∀ i ∈ s.identities ++ loose, ∀ j ∈ s.identities ++ loose, i.ref = j.ref → i = j
  admitted : ∀ i ∈ s.identities ++ loose, J.Admits i
  queueable : ∀ o ∈ s.stock, o.Queueable H
  retry : ∀ o ∈ s.carryRetry, o.Resealable H
  judged : ∀ fr ∈ s.records, J.judged fr.judged

variable {fr fr' : Round} {orders : List Order} {f : Round → Round}

section Sound

variable {H : Host} {J : Demands} {loose loose' : List Identity} {s s' : State} {o : Order}

theorem State.mem_stock : o ∈ s.stock ↔
    o ∈ s.pending ∨ (∃ fr ∈ s.records, o ∈ fr.orders) ∨ o ∈ s.unsent := by
  simp [State.stock]

theorem State.mem_identities_of_stock (ho : o ∈ s.stock) : o.identity ∈ s.identities :=
  List.mem_map_of_mem (List.mem_append_left _ ho)

theorem State.mem_identities_of_retry (ho : o ∈ s.carryRetry) : o.identity ∈ s.identities :=
  List.mem_map_of_mem (List.mem_append_right _ ho)

section

variable (h : s.Sound H J loose)

include h

/-- Orders move, change within their identity, and leave. -/
theorem State.Sound.next (hserials : s.serials = s'.serials)
    (hstock : ∀ o ∈ s'.stock, o.Queueable H ∧ o.identity ∈ s.identities ++ loose)
    (hretry : ∀ o ∈ s'.carryRetry, o.Resealable H ∧ o.identity ∈ s.identities ++ loose)
    (hjudged : ∀ fr ∈ s'.records, J.judged fr.judged) (hloose : loose' ⊆ s.identities ++ loose) :
    s'.Sound H J loose' := by
  have hsub : s'.identities ++ loose' ⊆ s.identities ++ loose := by
    refine List.append_subset.mpr ⟨fun i hi ↦ ?_, hloose⟩
    obtain ⟨o, ho, rfl⟩ := List.mem_map.mp hi
    rcases List.mem_append.mp ho with ho | ho
    · exact (hstock o ho).2
    · exact (hretry o ho).2
  exact
    { numbered := fun i hi ↦ hserials ▸ h.numbered i (hsub hi)
      distinct := fun i hi j hj ↦ h.distinct i (hsub hi) j (hsub hj)
      admitted := fun i hi ↦ h.admitted i (hsub hi)
      queueable := fun o ho ↦ (hstock o ho).1
      retry := fun o ho ↦ (hretry o ho).1
      judged := hjudged }

theorem State.Sound.of_stock (ho : o ∈ s.stock) :
    o.Queueable H ∧ o.identity ∈ s.identities ++ loose :=
  ⟨h.queueable o ho, List.mem_append_left _ (State.mem_identities_of_stock ho)⟩

theorem State.Sound.of_retry (ho : o ∈ s.carryRetry) :
    o.Resealable H ∧ o.identity ∈ s.identities ++ loose :=
  ⟨h.retry o ho, List.mem_append_left _ (State.mem_identities_of_retry ho)⟩

/-- What is in hand may be forgotten, and what the state holds taken in hand. -/
theorem State.Sound.hold (hloose : loose' ⊆ s.identities ++ loose) : s.Sound H J loose' :=
  h.next rfl (fun _ ho ↦ h.of_stock ho) (fun _ ho ↦ h.of_retry ho) h.judged hloose

theorem State.Sound.drop (hsub : loose' ⊆ loose) : s.Sound H J loose' :=
  h.hold fun _ hi ↦ List.mem_append_right _ (hsub hi)

/-- Orders move between the queue, the records and a build's hands. -/
theorem State.Sound.move (hserials : s.serials = s'.serials) (hretry : s'.carryRetry = s.carryRetry)
    (hqueue : ∀ o, o ∈ s'.pending ∨ o ∈ s'.unsent → o ∈ s.stock)
    (hrecords : ∀ fr ∈ s'.records, ∃ fr₀ ∈ s.records,
      fr.orders = fr₀.orders ∧ fr.judged = fr₀.judged) : s'.Sound H J loose := by
  refine h.next hserials (fun o ho ↦ h.of_stock ?_) (fun o ho ↦ h.of_retry (hretry ▸ ho)) ?_
    (List.subset_append_right _ _)
  · rcases State.mem_stock.mp ho with ho | ⟨fr, hfr, ho⟩ | ho
    · exact hqueue o (Or.inl ho)
    · obtain ⟨fr₀, hfr₀, horders, -⟩ := hrecords fr hfr
      exact State.mem_stock.mpr (Or.inr (Or.inl ⟨fr₀, hfr₀, horders ▸ ho⟩))
    · exact hqueue o (Or.inr ho)
  · intro fr hfr
    obtain ⟨fr₀, hfr₀, -, hjudged⟩ := hrecords fr hfr
    rw [hjudged]
    exact h.judged fr₀ hfr₀

/-- Orders in hand are queued. -/
theorem State.Sound.enqueue {queue : List Order}
    (hqueue : ∀ o ∈ queue, o ∈ s.pending ∨ (o.Queueable H ∧ o.identity ∈ loose)) :
    State.Sound H J loose { s with pending := queue } := by
  refine h.next rfl (fun o ho ↦ ?_) (fun _ ho ↦ h.of_retry ho) h.judged
    (List.subset_append_right _ _)
  rcases State.mem_stock.mp ho with ho | ho
  · rcases hqueue o ho with ho | ⟨hqueueable, hmem⟩
    · exact h.of_stock (State.mem_stock.mpr (Or.inl ho))
    · exact ⟨hqueueable, List.mem_append_right _ hmem⟩
  · exact h.of_stock (State.mem_stock.mpr (Or.inr ho))

/-- A new object has a number of its own. -/
theorem State.Sound.mint {i : Identity} (hi : i.ref = s.serials) (hadmits : J.Admits i) :
    State.Sound H J (i :: loose) { s with serials := s.serials + 1 } := by
  have hcases : ∀ j ∈ s.identities ++ i :: loose, j = i ∨ j ∈ s.identities ++ loose := by
    intro j hj
    simp only [List.mem_append, List.mem_cons] at hj ⊢
    tauto
  refine ⟨fun j hj ↦ ?_, fun j hj k hk hsame ↦ ?_, fun j hj ↦ ?_, h.queueable, h.retry, h.judged⟩
  · rcases hcases j hj with rfl | hold
    · exact hi ▸ Nat.lt_succ_self _
    · exact (h.numbered j hold).trans (Nat.lt_succ_self _)
  · -- an old number is below the new one
    rcases hcases j hj with rfl | hjold <;> rcases hcases k hk with rfl | hkold
    · rfl
    · have := h.numbered k hkold
      omega
    · have := h.numbered j hjold
      omega
    · exact h.distinct j hjold k hkold hsame
  · rcases hcases j hj with rfl | hold
    · exact hadmits
    · exact h.admitted j hold

/-- The orders of a record are under admitted names. -/
theorem State.Sound.named (hfr : fr ∈ s.records) : ∀ o ∈ fr.orders, J.name o.pair := fun o ho ↦
  (h.admitted o.identity (h.of_stock (State.mem_stock.mpr (Or.inr (Or.inl ⟨fr, hfr, ho⟩)))).2).1

end

end Sound

/-! ### Seals -/

section Seals

variable (H : Host) {J : Demands} {loose : List Identity}

/-- Hiding material is made of the order's own terms. -/
theorem sealMaterial_returns (o : Order) :
    Returns (sealMaterial H o) fun o' ↦
      o'.identity = o.identity ∧ o'.sig = o.sig ∧ o'.commit ≠ none ∧ o'.Hidden H := by
  unfold sealMaterial
  refine Returns.bind (Returns.ofOption (A := fun terms ↦ orderBytes o = some terms)
    fun terms hterms ↦ hterms) fun terms hterms ↦ ?_
  refine Returns.skip fun token ↦ ?_
  cases hmode : H.encMode with
  | true =>
    refine Returns.bind (Returns.ask (A := fun hidden ↦
      ∃ n, H.committeeEncrypt n terms token.val = some hidden) fun n hidden h ↦ ⟨n, h⟩)
      fun hidden hhidden ↦ Returns.skip fun _ ↦
        Returns.pure ⟨rfl, rfl, by simp, terms, token, hterms, ?_⟩
    rw [if_pos hmode]
    exact hhidden
  | false =>
    refine Returns.bind (Returns.pure (A := fun hidden ↦ hidden = terms ++ token.val) rfl)
      fun hidden hhidden ↦ Returns.skip fun _ ↦
        Returns.pure ⟨rfl, rfl, by simp, terms, token, hterms, ?_⟩
    rw [hmode]
    exact hhidden

/-- A remainder stays one whose seal may be asked for, and what is posted may be queued. -/
theorem postCarrySeal_returns {r : Order} (hr : r.Resealable H) :
    Returns (postCarrySeal H r) fun out ↦ out.1.identity = r.identity ∧ out.1.Resealable H ∧
      (out.2 = true → out.1.Queueable H) := by
  unfold postCarrySeal
  refine Returns.bind
    (A := fun made ↦ ∀ r', made = some r' → r'.identity = r.identity ∧ r'.Hidden H) ?_ ?_
  · cases hcommit : r.commit with
    | some commit =>
      refine Returns.pure fun r' hr' ↦ ?_
      cases hr'
      exact ⟨rfl, hr.hidden (by simp [hcommit])⟩
    | none =>
      exact (sealMaterial_returns H r).attempt.mono fun made hmade r' hr' ↦
        ⟨(hmade r' hr').1, (hmade r' hr').2.2.2⟩
  · intro made hmade
    cases made with
    | none => exact Returns.pure ⟨rfl, hr, fun hsent ↦ by cases hsent⟩
    | some r' =>
      obtain ⟨hidentity, hhidden⟩ := hmade r' rfl
      have hsealed : r'.sealed = true := (congrArg Identity.sealed hidentity).trans hr.isSealed
      refine Returns.skip fun sent ↦
        Returns.pure ⟨hidentity, ⟨hsealed, fun _ ↦ hhidden⟩, fun _ ↦ ?_⟩
      refine ⟨fun hopen ↦ ?_, fun _ ↦ hhidden⟩
      rw [hsealed] at hopen
      cases hopen

theorem sealMaterial_sound (o : Order) : Keeps (State.Sound H J loose) (sealMaterial H o) := by
  unfold sealMaterial
  refine Keeps.bind (ReadOnly.ofOption _).sat fun terms ↦ ?_
  refine Keeps.bind (ReadOnly.ask _).sat fun token ↦ ?_
  refine Keeps.bind (Sat.ite (fun _ ↦ (ReadOnly.ask _).sat) fun _ ↦ (ReadOnly.pure _).sat)
    fun hidden ↦ ?_
  exact Keeps.bind (Keeps.update fun s h ↦ { h with }) fun _ ↦ (ReadOnly.pure _).sat

theorem postCarrySeal_sound (r : Order) : Keeps (State.Sound H J loose) (postCarrySeal H r) := by
  unfold postCarrySeal
  refine Keeps.bind ?_ fun made ↦ ?_
  · cases r.commit with
    | some commit => exact (ReadOnly.pure _).sat
    | none => exact (sealMaterial_sound H r).attempt
  · cases made with
    | none => exact (ReadOnly.pure _).sat
    | some r' => exact Keeps.bind (ReadOnly.ask _).sat fun _ ↦ (ReadOnly.pure _).sat

end Seals

/-! ### The resolver -/

section Resolver

variable (H : Host) {J : Demands} {loose : List Identity}

theorem recordExec_sound (p : Pair) (d : Disposition) :
    Keeps (State.Sound H J loose) (recordExec p d) := by
  refine Keeps.update fun s h ↦ ?_
  cases d.terminal with
  | none => exact h
  | some outcome => exact { h with }

/-- The remainders of a settled round are new orders, sealed anew. -/
theorem carryEach_sound (now : Time) (clearing : Clearing) (hnamed : ∀ o ∈ orders, J.name o.pair) :
    Sat (State.Sound H J loose) (carryEach H now clearing orders)
      (fun out s ↦ s.Sound H J (out.1.map Order.identity ++ loose) ∧ ∀ r ∈ out.1, r.Queueable H)
      (State.Sound H J loose) := by
  induction orders generalizing loose with
  | nil => exact Sat.pure fun s h ↦ ⟨h, by simp⟩
  | cons o orders ih =>
    obtain ⟨hname, hrest⟩ := List.forall_mem_cons.mp hnamed
    have hpast : ∀ d : Disposition, Sat (State.Sound H J loose)
        (carryEach H now clearing orders >>= fun out ↦ pure (out.1, (o, d) :: out.2))
        (fun out s ↦ s.Sound H J (out.1.map Order.identity ++ loose) ∧ ∀ r ∈ out.1, r.Queueable H)
        (State.Sound H J loose) :=
      fun d ↦ Sat.bind (ih hrest) fun out ↦ Sat.pure fun s h ↦ h
    unfold carryEach
    refine Sat.current fun t ↦ ?_
    refine Sat.ite (fun _ ↦ (hpast _).weaken fun s h ↦ h.1) fun _ ↦
      Sat.ite (fun _ ↦ (hpast _).weaken fun s h ↦ h.1) fun _ ↦ ?_
    set r := remainderOf o (o.qty - clearing.filled o.oid) t.serials with hr
    have hbare : r.Resealable H := ⟨rfl, fun hsome ↦ absurd rfl hsome⟩
    refine Sat.bind (Q := fun _ ↦ State.Sound H J (r.identity :: loose)) (Sat.update ?_) fun _ ↦ ?_
    · rintro s ⟨h, rfl⟩
      exact h.mint rfl ⟨hname, fun hopen ↦ by cases hopen⟩
    refine Sat.bind (((postCarrySeal_sound H r).returned (postCarrySeal_returns H hbare)).raising
      fun s h ↦ h.drop (List.subset_cons_self _ _)) ?_
    rintro ⟨r', sent⟩
    apply Sat.assume
    rintro ⟨hidentity, hresealable, hqueueable⟩
    cases sent with
    | true =>
      refine Sat.bind (Q := fun _ ↦ State.Sound H J (r'.identity :: loose))
        (Sat.update fun s h ↦ ?_)
        fun _ ↦ ?_
      · rw [if_pos rfl]
        exact h.drop (by rw [← hidentity]; exact List.Subset.refl _)
      · refine Sat.bind ((ih hrest).raising fun s h ↦
          h.drop (List.subset_cons_self _ _)) fun out ↦ Sat.pure fun s h ↦ ⟨h.1.drop ?_, ?_⟩
        · simp
        · exact List.forall_mem_cons.mpr ⟨hqueueable rfl, h.2⟩
    | false =>
      refine Sat.bind (Q := fun _ ↦ State.Sound H J loose) (Sat.update fun s h ↦ ?_)
        fun _ ↦ Sat.bind (ih hrest) fun out ↦ Sat.pure fun s h ↦ h
      refine h.next rfl (fun _ ho ↦ h.of_stock ho) (fun x hx ↦ ?_) h.judged (by simp)
      rcases List.mem_append.mp hx with hx | hx
      · exact h.of_retry hx
      · rw [List.mem_singleton.mp hx]
        exact ⟨hresealable, by simp [hidentity]⟩

theorem recordExecutions_sound (resting publicOrders : List Order)
    (sealedOrders : List (Order × Disposition)) (clearing : Clearing) (rid : Bytes32) :
    Keeps (State.Sound H J loose)
      (recordExecutions H resting sealedOrders publicOrders clearing rid) := by
  have hrested : ∀ o : Order, Keeps (State.Sound H J loose)
      (update fun s ↦ s.log (.rested o.pair)) := fun o ↦ Keeps.update fun s h ↦ { h with }
  unfold recordExecutions
  refine Sat.ite (fun _ ↦ (ReadOnly.pure _).sat) fun _ ↦ ?_
  refine Keeps.bind (readOnly_landedFinal H rid).attempt.sat fun _ ↦ ?_
  refine Keeps.bind (Sat.forEach fun entry _ ↦ recordExec_sound H _ _) fun _ ↦ ?_
  refine Keeps.bind (Sat.forEach fun o _ ↦ ?_) fun _ ↦ Sat.forEach fun o _ ↦ ?_
  · refine Sat.ite (fun _ ↦ recordExec_sound H _ _) fun _ ↦ Sat.ite (fun _ ↦ ?_) fun _ ↦
      recordExec_sound H _ _
    exact Keeps.bind (hrested o) fun _ ↦ Sat.when (fun _ ↦ recordExec_sound H _ _) fun _ _ h ↦ h
  · refine Keeps.bind (Sat.when (fun _ ↦ hrested o) fun _ _ h ↦ h) fun _ ↦ ?_
    exact Sat.when (fun _ ↦ recordExec_sound H _ _) fun _ _ h ↦ h

/-- Settling a round hands out receipts and queues its remainders. -/
theorem finalizeRound_sound (hnamed : ∀ o ∈ fr.orders, J.name o.pair) :
    Keeps (State.Sound H J loose) (finalizeRound H fr) := by
  unfold finalizeRound
  refine Keeps.bind (readOnly_time H).sat fun now ↦ ?_
  refine Keeps.bind (Keeps.update fun s h ↦ ?_) fun _ ↦ ?_
  · unfold State.growEncCap
    split
    · exact h
    · split_ifs
      · exact { h with }
      · exact h
  refine Keeps.bind ?_ fun dispositions ↦ ?_
  · refine Sat.bind (carryEach_sound H now fr.clearing fun o ho ↦
      hnamed o (List.mem_append_left _ (List.mem_of_mem_filter ho))) fun out ↦ ?_
    refine Sat.bind (Sat.update (Q := fun _ ↦ State.Sound H J loose) fun s h ↦ ?_) fun _ ↦
      Sat.pure fun s h ↦ h
    obtain ⟨h, hcarried⟩ := h
    refine (h.enqueue fun o ho ↦ (List.mem_append.mp ho).imp_right fun ho ↦ ?_).drop
      (List.subset_append_right _ _)
    exact ⟨hcarried o ho, List.mem_append_left _ (List.mem_map_of_mem ho)⟩
  refine Keeps.bind (recordExecutions_sound H _ _ _ _ _) fun _ ↦ ?_
  refine Keeps.bind (Keeps.update fun s h ↦ { h with }) fun _ ↦ ?_
  exact Sat.forEach fun p _ ↦ Keeps.update fun s h ↦ { h with }

/-- The record is drafted and judged as the other was. -/
def Round.Recasts (fr fr₀ : Round) : Prop := fr.orders = fr₀.orders ∧ fr.judged = fr₀.judged

variable {H} {s : State} {z : Round}

theorem mapOthers_recasts (hf : ∀ r, (f r).Recasts r) :
    ∀ fr ∈ (s.mapOthers z f).records, ∃ fr₀ ∈ s.records, fr.Recasts fr₀ := by
  intro fr hfr
  have hmap : (s.mapOthers z f).records =
      s.records.map fun fr ↦ if fr.ref = z.ref then fr else f fr := by
    cases hflight : s.inflight <;> simp [State.records, State.mapOthers, hflight]
  rw [hmap] at hfr
  obtain ⟨fr₀, hfr₀, rfl⟩ := List.mem_map.mp hfr
  refine ⟨fr₀, hfr₀, ?_⟩
  split_ifs
  · exact ⟨rfl, rfl⟩
  · exact hf fr₀

theorem State.Sound.setZombie (h : s.Sound H J loose) (ref : ℕ) (hf : ∀ r, (f r).Recasts r) :
    (s.setZombie ref f).Sound H J loose := by
  refine h.move rfl rfl (fun o ho ↦ State.mem_stock.mpr (ho.imp_right Or.inr)) fun fr hfr ↦ ?_
  rcases List.mem_append.mp hfr with hfr | hfr
  · exact ⟨fr, List.mem_append_left _ hfr, rfl, rfl⟩
  · obtain ⟨fr₀, hfr₀, rfl⟩ := List.mem_map.mp hfr
    refine ⟨fr₀, List.mem_append_right _ hfr₀, ?_⟩
    split_ifs
    · exact hf fr₀
    · exact ⟨rfl, rfl⟩

theorem State.Sound.claim (h : s.Sound H J loose) (z : Round) : (s.claim z).Sound H J loose := by
  refine h.move rfl rfl (fun o ho ↦ State.mem_stock.mpr ?_)
    (mapOthers_recasts fun r ↦ ⟨rfl, rfl⟩)
  rcases ho with ho | ho
  · exact Or.inl (List.mem_of_mem_filter ho)
  · exact Or.inr (Or.inr ho)

theorem State.Sound.unclaim (h : s.Sound H J loose) (hz : ∀ o ∈ z.orders, o ∈ s.stock) :
    (s.unclaim z).Sound H J loose := by
  refine h.move rfl rfl (fun o ho ↦ ?_) (mapOthers_recasts fun r ↦ ⟨rfl, rfl⟩)
  rcases ho with ho | ho
  · rcases List.mem_append.mp ho with ho | ho
    · exact hz o (List.mem_of_mem_filter ho)
    · exact State.mem_stock.mpr (Or.inl ho)
  · exact State.mem_stock.mpr (Or.inr (Or.inr ho))

variable (H)

theorem visitZombie_sound (now : Time) (z : Round) :
    Sat (fun s ↦ s.Sound H J loose ∧ z ∈ s.zombies) (visitZombie H now z)
      (fun _ ↦ State.Sound H J loose) (State.Sound H J loose) := by
  have hstay : ∀ out : Bool × List OKey, Sat (fun s ↦ s.Sound H J loose ∧ z ∈ s.zombies)
      (pure out : B (Bool × List OKey)) (fun _ ↦ State.Sound H J loose)
      (State.Sound H J loose) := fun out ↦ Sat.pure fun s h ↦ h.1
  refine Sat.given (fun s h ↦ h.1.named (List.mem_append_right _ h.2)) fun hnamed ↦ ?_
  unfold visitZombie
  refine Sat.ite (fun _ ↦ hstay _) fun _ ↦ ?_
  refine Sat.bind (Keeps.attempt (readOnly_landedSlot H z.rid).sat |>.raising
    fun _ h ↦ h.1) fun slot ↦ ?_
  split
  · exact hstay _
  · refine Sat.bind (Sat.update (Q := fun _ ↦ State.Sound H J loose) fun s h ↦ { h.1 with })
      fun _ ↦ Keeps.bind (Keeps.update fun s h ↦ ?_) fun _ ↦ Sat.pure fun s h ↦ h
    refine State.Sound.claim (h.setZombie _ ?_) z
    exact fun r ↦ ⟨rfl, rfl⟩
  · next slot since hsome =>
    refine Sat.bind ((readOnly_confirmed H z.rid since now).sat.raising
      fun _ h ↦ h.1) fun durable ↦ ?_
    refine Sat.ite (fun _ ↦ ?_) fun _ ↦ hstay _
    refine Sat.bind ((readOnly_rivalLanded H z).sat.raising fun _ h ↦ h.1) fun rival ↦ ?_
    refine Sat.ite (fun _ ↦ hstay _) fun _ ↦ ?_
    refine Sat.bind (Sat.update (Q := fun _ ↦ State.Sound H J loose) fun s h ↦ { h.1 with })
      fun _ ↦ Keeps.bind (finalizeRound_sound H hnamed).attempt fun _ ↦ Sat.pure fun s h ↦ h
  · exact hstay _
  · refine Sat.bind (Sat.update (Q := fun _ s ↦ s.Sound H J loose ∧ z ∈ s.zombies)
      fun s h ↦ ⟨{ h.1 with }, h.2⟩) fun _ ↦ Sat.bind (Sat.update
        (Q := fun _ ↦ State.Sound H J loose) fun s h ↦ ?_) fun _ ↦ Sat.pure fun s h ↦ h
    obtain ⟨h, hz⟩ := h
    refine State.Sound.unclaim (h.setZombie _ ?_) fun o ho ↦ State.mem_stock.mpr ?_
    · exact fun r ↦ ⟨rfl, rfl⟩
    · refine Or.inr (Or.inl ⟨{ z with okSince := none }, ?_, ho⟩)
      exact List.mem_append_right _ (List.mem_map.mpr ⟨z, hz, if_pos rfl⟩)

theorem visitEach_sound (now : Time) (refs : List ℕ) (dropped : List Holding) :
    Keeps (State.Sound H J loose) (visitEach H now refs dropped) := by
  induction refs generalizing dropped with
  | nil => exact (ReadOnly.pure _).sat
  | cons ref refs ih =>
    unfold visitEach
    refine Sat.current fun t ↦ ?_
    cases hfind : t.zombies.find? fun z ↦ z.ref = ref with
    | none => exact (ih _).weaken fun s h ↦ h.1
    | some z =>
      refine Sat.bind (Q := fun _ ↦ State.Sound H J loose)
        (Sat.rescue ((visitZombie_sound H now z).weaken
        ?_) (Keeps.update fun s h ↦ { h with })) fun out ↦ ?_
      · rintro s ⟨h, rfl⟩
        exact ⟨h, List.mem_of_find?_eq_some hfind⟩
      · exact Keeps.bind (ih _) fun rest ↦ (ReadOnly.pure _).sat

theorem resolveZombies_sound (now : Time) :
    Keeps (State.Sound H J loose) (resolveZombies H now) := by
  unfold resolveZombies
  refine Keeps.current fun t ↦ Keeps.bind (visitEach_sound H now _ _) fun out ↦ ?_
  refine Keeps.bind (Keeps.update fun s h ↦ ?_) fun _ ↦ (ReadOnly.pure _).sat
  refine h.move rfl rfl (fun o ho ↦ State.mem_stock.mpr (ho.imp_right Or.inr)) fun fr hfr ↦
    ⟨fr, ?_, rfl, rfl⟩
  exact (List.filter_sublist.append_left _).subset hfr

variable {H}

/-- The round in flight is replaced by a recast of itself. -/
theorem State.Sound.patchFlight (h : s.Sound H J loose) (hfr : s.inflight = some fr)
    (hcast : fr'.Recasts fr) : State.Sound H J loose { s with inflight := some fr' } := by
  refine h.move rfl rfl (fun o ho ↦ State.mem_stock.mpr (ho.imp_right Or.inr)) fun r hr ↦ ?_
  rcases List.mem_cons.mp hr with rfl | hr
  · exact ⟨fr, by simp [State.records, hfr], hcast⟩
  · exact ⟨r, List.mem_append_right _ hr, rfl, rfl⟩

/-- A released round is watched, its orders queued again. -/
theorem State.Sound.abandon (h : s.Sound H J loose) (hfr : s.inflight = some fr)
    (hcast : fr'.Recasts fr) (why : Release) (now : Time) :
    (s.abandon H fr' why now).Sound H J loose := by
  have hflight : fr ∈ s.records := by simp [State.records, hfr]
  set zombie : Round := { fr' with ref := s.refs, abandonedAt := now, okSince := none } with hzombie
  have hreleased : State.Sound H J loose { s with
      inflight := none
      pending := fr'.unclaimed fr'.orders ++ s.pending
      zombies := evict (s.zombies ++ [zombie]).length (s.zombies ++ [zombie])
      refs := s.refs + 1 } := by
    refine h.move rfl rfl (fun o ho ↦ State.mem_stock.mpr ?_) fun r hr ↦ ?_
    · rcases ho with ho | ho
      · rcases List.mem_append.mp ho with ho | ho
        · exact Or.inr (Or.inl ⟨fr, hflight, hcast.1 ▸ List.mem_of_mem_filter ho⟩)
        · exact Or.inl ho
      · exact Or.inr (Or.inr ho)
    · rcases List.mem_append.mp ((evict_sublist _ _).subset hr) with hr | hr
      · exact ⟨r, List.mem_append_right _ hr, rfl, rfl⟩
      · exact ⟨fr, hflight, List.mem_singleton.mp hr ▸ hcast⟩
  cases why with
  | timeout => exact { hreleased with }
  | _ => exact hreleased

variable (H)

theorem resolveInflight_sound (now : Time) (fr : Round) :
    Sat (fun s ↦ s.Sound H J loose ∧ s.inflight = some fr) (resolveInflight H now fr)
      (fun _ ↦ State.Sound H J loose) (State.Sound H J loose) := by
  have hjudge : ReadOnly (do
      let why ← roundDead H fr
      let slot ← landedSlot H fr.rid
      pure (why, slot) : B (Option Release × Option ℕ)) :=
    (readOnly_roundDead H fr).bind fun _ ↦ (readOnly_landedSlot H _).bind fun _ ↦ ReadOnly.pure _
  have hpatch : ∀ fr' : Round, fr'.Recasts fr →
      Sat (fun s ↦ s.Sound H J loose ∧ s.inflight = some fr)
        (update fun s ↦ { s with inflight := some fr' }) (fun _ ↦ State.Sound H J loose)
        (State.Sound H J loose) :=
    fun fr' hcast ↦ Sat.update fun s h ↦ h.1.patchFlight h.2 hcast
  refine Sat.given (fun s h ↦ h.1.named (show fr ∈ s.records by simp [State.records, h.2]))
    fun hnamed ↦ ?_
  unfold resolveInflight
  refine Sat.bind (hjudge.attempt.sat.raising fun _ h ↦ h.1) fun judged ↦ ?_
  split
  · exact Sat.pure fun s h ↦ h.1
  · exact hpatch _ ⟨rfl, rfl⟩
  · next since _ =>
    refine Sat.bind (hpatch _ ⟨rfl, rfl⟩) fun _ ↦ ?_
    refine Keeps.bind (readOnly_confirmed H fr.rid since now).sat fun durable ↦ ?_
    refine Sat.ite (fun _ ↦ ?_) fun _ ↦ (ReadOnly.pure _).sat
    refine Keeps.bind (readOnly_rivalLanded H fr).sat fun rival ↦ ?_
    refine Sat.ite (fun _ ↦ (ReadOnly.pure _).sat) fun _ ↦ ?_
    refine Keeps.bind (Keeps.update fun s h ↦ { h with }) fun _ ↦ ?_
    refine Keeps.bind (Keeps.update fun s h ↦ ?_) fun _ ↦
      Keeps.bind (finalizeRound_sound H hnamed).attempt fun _ ↦ (ReadOnly.pure _).sat
    refine h.move rfl rfl (fun o ho ↦ State.mem_stock.mpr (ho.imp_right Or.inr)) fun r hr ↦ ?_
    exact ⟨r, List.mem_append_right _ hr, rfl, rfl⟩
  · exact hpatch _ ⟨rfl, rfl⟩
  · refine Sat.ite (fun _ ↦ ?_) fun _ ↦ hpatch _ ⟨rfl, rfl⟩
    exact Sat.update fun s h ↦ h.1.abandon h.2 ⟨rfl, rfl⟩ _ now
  · refine Sat.ite (fun _ ↦ ?_) fun _ ↦ hpatch _ ⟨rfl, rfl⟩
    refine Sat.update fun s h ↦ h.1.abandon h.2 ?_ _ now
    exact ⟨rfl, rfl⟩

/-- The drain keeps the remainders it has in hand. -/
theorem drainEach_sound (now : Time) (rest : List Order) {done kept : List Order}
    {reposted lapsed : List OKey}
    (hands : ∀ r ∈ done ++ kept ++ rest, r.Resealable H ∧ r.identity ∈ loose) :
    Sat (State.Sound H J loose) (drainEach H now done kept reposted lapsed rest)
      (fun kept' s ↦ s.Sound H J loose ∧ ∀ r ∈ kept', r.Resealable H ∧ r.identity ∈ loose)
      (State.Sound H J loose) := by
  induction rest generalizing done kept reposted lapsed with
  | nil =>
    refine Sat.pure fun s h ↦ ⟨h, fun r hr ↦ hands r ?_⟩
    simp [hr]
  | cons r rest ih =>
    obtain ⟨hr, hidentity⟩ := hands r (by simp)
    unfold drainEach
    refine Sat.current fun t ↦ Sat.weaken (?_ : Sat (State.Sound H J loose) _ _ _) fun s h ↦ h.1
    refine Sat.ite (fun _ ↦ ?_) fun _ ↦ ?_
    · refine Sat.bind (Keeps.attempt (readOnly_mstate H _).sat) fun price ↦ ?_
      cases price with
      | none =>
        refine Sat.bind (Q := fun _ ↦ State.Sound H J loose) (Sat.update fun s h ↦ ?_) fun _ ↦
          Sat.raise fun s h ↦ h
        have hlist : State.Sound H J loose { s with carryRetry := done ++ r :: rest } := by
          refine h.next rfl (fun _ ho ↦ h.of_stock ho) (fun x hx ↦ ?_) h.judged (by simp)
          obtain ⟨hseal, hmem⟩ := hands x (by
            simp only [List.mem_append] at hx ⊢
            tauto)
          exact ⟨hseal, List.mem_append_right _ hmem⟩
        exact { hlist with }
      | some price =>
        refine Sat.bind (recordExec_sound H _ _) fun _ ↦ ih fun x hx ↦ hands x ?_
        simp only [List.mem_append, List.mem_cons, List.not_mem_nil, or_false] at hx ⊢
        tauto
    · refine Sat.bind ((postCarrySeal_sound H r).returned (postCarrySeal_returns H hr)) ?_
      rintro ⟨r', sent⟩
      apply Sat.assume
      rintro ⟨hsame, hresealable, hqueueable⟩
      have hr' : r'.identity ∈ loose := (show r'.identity = r.identity from hsame) ▸ hidentity
      have hands' : ∀ x ∈ done ++ kept ++ rest ++ [r'], x.Resealable H ∧ x.identity ∈ loose := by
        intro x hx
        rcases List.mem_append.mp hx with hx | hx
        · refine hands x ?_
          simp only [List.mem_append, List.mem_cons] at hx ⊢
          tauto
        · rw [List.mem_singleton.mp hx]
          exact ⟨hresealable, hr'⟩
      refine Sat.ite (fun hsent ↦ ?_) fun _ ↦ ih fun x hx ↦ hands' x ?_
      · refine Sat.bind (Q := fun _ ↦ State.Sound H J loose) (Sat.update fun s h ↦ ?_) fun _ ↦
          ih fun x hx ↦ hands' x ?_
        · refine h.enqueue fun o ho ↦ (List.mem_append.mp ho).imp_right fun ho ↦ ?_
          rw [List.mem_singleton.mp ho]
          exact ⟨hqueueable hsent, hr'⟩
        · simp only [List.mem_append, List.mem_cons, List.not_mem_nil, or_false] at hx ⊢
          tauto
      · simp only [List.mem_append, List.mem_cons, List.not_mem_nil, or_false] at hx ⊢
        tauto

theorem drainCarryRetry_sound (now : Time) :
    Keeps (State.Sound H J loose) (drainCarryRetry H now) := by
  unfold drainCarryRetry
  refine Sat.current fun t ↦ Sat.ofEach ?_
  rintro t ⟨h, rfl⟩
  set hands := t.carryRetry.map Order.identity ++ loose with hhands
  have hdrain : Sat (State.Sound H J hands) (drainEach H now [] [] [] [] t.carryRetry)
      (fun kept s ↦ s.Sound H J hands ∧ ∀ r ∈ kept, r.Resealable H ∧ r.identity ∈ hands)
      (State.Sound H J hands) := by
    refine drainEach_sound H now _ fun r hr ↦ ⟨h.retry r hr, ?_⟩
    exact List.mem_append_left _ (List.mem_map_of_mem hr)
  refine Sat.bind (hdrain.conseq ?_ (fun _ _ h ↦ h) fun s h ↦ h.drop (List.subset_append_right _ _))
    fun kept ↦ Sat.update ?_
  · rintro s rfl
    refine h.hold (List.append_subset.mpr ⟨fun i hi ↦ ?_, List.subset_append_right _ _⟩)
    obtain ⟨r, hr, rfl⟩ := List.mem_map.mp hi
    exact (h.of_retry hr).2
  · rintro s ⟨hs, hkept⟩
    refine hs.next rfl (fun _ ho ↦ hs.of_stock ho) (fun r hr ↦ ⟨(hkept r hr).1, ?_⟩) hs.judged ?_
    · exact List.mem_append_right _ (hkept r hr).2
    · exact fun i hi ↦ List.mem_append_right _ (List.mem_append_right _ hi)

theorem resolveRoundsOnce_sound : Keeps (State.Sound H J loose) (resolveRoundsOnce H) := by
  unfold resolveRoundsOnce
  refine Keeps.bind (readOnly_time H).sat fun now ↦
    Keeps.bind (drainCarryRetry_sound H now) fun _ ↦ ?_
  refine Keeps.bind (readOnly_time H).sat fun t ↦ Keeps.bind (resolveZombies_sound H t) fun _ ↦ ?_
  refine Sat.current fun s₀ ↦ ?_
  cases hfr : s₀.inflight with
  | none => exact Sat.pure fun s h ↦ h.1
  | some fr =>
    refine (resolveInflight_sound H t fr).weaken ?_
    rintro s ⟨h, rfl⟩
    exact ⟨h, hfr⟩

end Resolver

/-! ### Building -/

section Build

variable {H : Host} {J : Demands} {loose : List Identity} {s : State}

theorem records_mapOrders (s : State) (f : Order → Order) : (s.mapOrders f).records =
    s.records.map fun r ↦
      { r with sealedOrders := r.sealedOrders.map f, publicOrders := r.publicOrders.map f } := by
  cases hflight : s.inflight <;> simp [State.records, State.mapOrders, hflight]

theorem stock_mapOrders (s : State) (f : Order → Order) :
    (s.mapOrders f).stock = s.stock.map f := by
  simp only [State.stock, records_mapOrders, List.map_append, List.flatMap_map, List.map_flatMap,
    Round.orders]
  rfl

/-- Order objects change within their identity, wherever they are. -/
theorem State.Sound.mapOrders (h : s.Sound H J loose) {f : Order → Order}
    (hf : ∀ o, (f o).identity = o.identity) (hq : ∀ o ∈ s.stock, (f o).Queueable H) :
    (s.mapOrders f).Sound H J loose := by
  refine h.next rfl (fun o ho ↦ ?_) (fun _ ho ↦ h.of_retry ho) (fun fr hfr ↦ ?_)
    (List.subset_append_right _ _)
  · rw [stock_mapOrders] at ho
    obtain ⟨x, hx, rfl⟩ := List.mem_map.mp ho
    exact ⟨hq x hx, hf x ▸ (h.of_stock hx).2⟩
  · rw [records_mapOrders] at hfr
    obtain ⟨r, hr, rfl⟩ := List.mem_map.mp hfr
    exact h.judged r hr

variable (H)

/-- Only public orders are re-priced, and no sealed order shares an identity with one. -/
theorem priceMarketOrders_sound (horders : ∀ o ∈ orders, o.sealed = false ∧ o.identity ∈ loose) :
    Keeps (State.Sound H J loose) (priceMarketOrders H orders) := by
  unfold priceMarketOrders
  refine Sat.ite (fun _ ↦ (ReadOnly.pure _).sat) fun _ ↦ ?_
  refine Keeps.bind (readOnly_mstate H _).sat fun lp ↦ ?_
  refine Sat.ite (fun _ ↦ (ReadOnly.pure _).sat) fun _ ↦ ?_
  refine Keeps.bind (Keeps.update fun s h ↦ h.mapOrders (fun o ↦ ?_) fun o ho ↦ ?_) fun _ ↦
    (ReadOnly.pure _).sat
  · split_ifs <;> rfl
  · have hsound := h.queueable o ho
    split_ifs with href
    · refine ⟨hsound.sig, fun hsealed ↦ ?_⟩
      obtain ⟨x, hx, hsame⟩ := List.mem_map.mp href
      obtain ⟨hopen, hloose⟩ := horders x (List.mem_of_mem_filter hx)
      have hidentity := h.distinct x.identity (List.mem_append_right _ hloose) o.identity
        (h.of_stock ho).2 hsame
      have hseal : x.sealed = o.sealed := congrArg Identity.sealed hidentity
      rw [hopen] at hseal
      rw [← hseal] at hsealed
      cases hsealed
    · exact hsound

theorem readOnly_sanitizeEach (orders : List Order) (floors run : UInt32 → Option ℕ) :
    ReadOnly (sanitizeEach H orders floors run) := by
  induction orders generalizing floors run with
  | nil => exact ReadOnly.pure _
  | cons o orders ih =>
    unfold sanitizeEach
    refine ReadOnly.bind ?_ fun floor ↦ ?_
    · cases floors o.account with
      | some floor => exact ReadOnly.pure _
      | none => exact readOnly_mstate H _
    · exact ReadOnly.ite ((ih _ _).bind fun _ ↦ ReadOnly.pure _)
        (ReadOnly.ite ((ih _ _).bind fun _ ↦ ReadOnly.pure _)
          ((ih _ _).bind fun _ ↦ ReadOnly.pure _))

theorem watchReleased_sound : Keeps (State.Sound H J loose) (watchReleased H) := by
  unfold watchReleased
  refine Keeps.current fun _ ↦ Sat.ite (fun _ ↦ (ReadOnly.pure _).sat) fun _ ↦ ?_
  exact Keeps.bind (readOnly_time H).sat fun now ↦ resolveZombies_sound H now

theorem keepCrossing_sound {sealedOrders : List Order} (publicOrders resting : List Order)
    (now : Time) (hsealed : ∀ o ∈ sealedOrders, o.Queueable H ∧ o.identity ∈ loose) :
    Keeps (State.Sound H J loose) (keepCrossing sealedOrders publicOrders resting now) := by
  unfold keepCrossing
  refine Sat.ite (fun _ ↦ ?_) fun _ ↦ (ReadOnly.pure _).sat
  refine Keeps.bind (Keeps.update fun s h ↦ ?_) fun _ ↦ (ReadOnly.pure _).sat
  refine h.enqueue fun o ho ↦ (List.mem_append.mp ho).symm.imp_right fun ho ↦ ?_
  exact hsealed o (List.mem_of_mem_filter ho)

theorem endTaken_sound (o : Order) (outcome : Outcome) :
    Keeps (State.Sound H J loose) (update fun s ↦ s.endTaken o outcome) :=
  Keeps.update fun _ h ↦ { h with }

theorem assembleRound_sound (now : Time) (raw : Bytes) (pruned : List Pair) {plan : RoundPlan}
    (resting : List Order) (hreveal : ∀ o ∈ plan.reveal, o.Queueable H ∧ o.identity ∈ loose)
    (hpublic : ∀ o ∈ plan.publicOrders, o.sealed = false ∧ o.identity ∈ loose) :
    Keeps (State.Sound H J loose) (assembleRound H now raw pruned plan resting) := by
  unfold assembleRound
  refine Keeps.bind (priceMarketOrders_sound H hpublic) fun priced ↦ ?_
  refine Keeps.bind (readOnly_sanitizeEach H _ _ _).sat fun kept ↦ ?_
  refine Keeps.bind (watchReleased_sound H) fun claimed ↦ ?_
  refine Keeps.bind (Sat.forEach fun entry _ ↦ endTaken_sound H _ _) fun _ ↦ ?_
  refine Keeps.bind (keepCrossing_sound H _ resting now fun o ho ↦
    hreveal o (List.mem_of_mem_filter ho)) fun sealedOrders ↦ ?_
  refine Sat.ite (fun _ ↦ ?_) fun _ ↦ ?_
  · exact ((readOnly_mstate H _).bind fun _ ↦ (readOnly_mstate H _).bind fun _ ↦
      (ReadOnly.ask _).bind fun _ ↦ ReadOnly.pure _).sat
  · refine Keeps.bind (ReadOnly.ofOption _).sat fun sec ↦ ?_
    refine Keeps.bind (Keeps.rescue (readOnly_roundPayload H _ _).sat ?_) fun payload ↦ ?_
    · exact Keeps.bind (readOnly_time H).sat fun t ↦ Keeps.update fun s h ↦ { h with }
    · exact ((readOnly_time H).bind fun t ↦ ReadOnly.current.bind fun _ ↦ ReadOnly.pure _).sat

theorem planStep_sound (now : Time) : Keeps (State.Sound H J loose) (planStep H now) := by
  unfold planStep
  refine Keeps.bind (ReadOnly.ask _).sat fun raw ↦ Keeps.bind (readOnly_time H).sat fun t ↦ ?_
  refine Keeps.current fun s₀ ↦ Keeps.bind (ReadOnly.ask _).sat fun entries ↦ ?_
  refine Keeps.bind (ReadOnly.ask _).sat fun fin ↦ ?_
  refine Keeps.bind (Sat.ite (fun _ ↦ (ReadOnly.ask _).sat) fun _ ↦ (ReadOnly.pure _).sat)
    fun finalRaw ↦ ?_
  refine Keeps.bind ?_ fun ready ↦ ?_
  · unfold sealedReadyPredicate
    split
    · exact (ReadOnly.pure _).sat
    · exact Keeps.bind (Keeps.update fun s h ↦ { h with }) fun _ ↦
        (ReadOnly.current.bind fun _ ↦ ReadOnly.pure _).sat
  refine Keeps.bind ?_ fun committee ↦ ?_
  · refine Sat.ite (fun _ ↦ ?_) fun _ ↦ (ReadOnly.pure _).sat
    exact ((ReadOnly.ask _).bind fun _ ↦ ReadOnly.pure _ : ReadOnly (committeeSize H)).sat
  refine Keeps.bind (Keeps.update fun s h ↦ ?_) fun _ ↦ Keeps.current fun s₁ ↦
    Keeps.bind (Keeps.update fun s h ↦ ?_) fun _ ↦ (ReadOnly.pure _).sat
  · refine h.next rfl (fun o ho ↦ ?_) (fun _ ho ↦ h.of_retry ho) h.judged
      (List.subset_append_right _ _)
    rcases State.mem_stock.mp ho with ho | ho
    · obtain ⟨x, hx, rfl⟩ := List.mem_map.mp ho
      obtain ⟨hqueue, hmem⟩ := h.of_stock (State.mem_stock.mpr (Or.inl hx))
      exact ⟨⟨hqueue.sig, hqueue.hidden⟩, hmem⟩
    · exact h.of_stock (State.mem_stock.mpr (Or.inr ho))
  · refine h.move rfl rfl (fun o ho ↦ State.mem_stock.mpr (Or.inl ?_)) fun fr hfr ↦
      ⟨fr, hfr, rfl, rfl⟩
    rcases ho with ho | ho
    · exact List.mem_of_mem_filter ho
    · exact List.mem_of_mem_filter ho

end Build

/-! ### Placing and cancelling -/

section Place

variable (H : Host) {J : Demands} {loose : List Identity}

theorem cancelPending_sound (p : Pair) : Keeps (State.Sound H J loose) (cancelPending H p) := by
  unfold cancelPending
  refine Keeps.current fun t ↦ Sat.ite (fun _ ↦ (ReadOnly.pure _).sat) fun _ ↦ ?_
  refine Keeps.bind (readOnly_anyCanLand H _).sat fun blocked ↦ ?_
  refine Sat.ite (fun _ ↦ ReadOnly.raise.sat) fun _ ↦ ?_
  refine Keeps.bind (Keeps.update fun s h ↦ ?_) fun _ ↦ Sat.forEach fun o _ ↦ ?_
  · refine h.move rfl rfl (fun o ho ↦ State.mem_stock.mpr ?_) fun fr hfr ↦ ⟨fr, hfr, rfl, rfl⟩
    exact ho.imp List.mem_of_mem_filter Or.inr
  · exact Keeps.bind (Keeps.update fun s h ↦ { h with }) fun _ ↦ recordExec_sound H _ _

/-- The door lets in public orders with a signature, and a sealed order is hidden before it is
queued. -/
theorem placeOrder_sound {q : Request}
    (hadmits : J.name q.pair ∧ (q.sealed = false → J.signed q.pair q.seq)) :
    Keeps (State.Sound H J loose) (placeOrder H q) := by
  unfold placeOrder
  refine Keeps.bind (ReadOnly.ask _).sat fun refused ↦ ?_
  refine Sat.ite (fun _ ↦ ReadOnly.raise.sat) fun hdoor ↦ Sat.current fun t ↦ Sat.ofEach ?_
  rintro t ⟨h, rfl⟩
  have hsig : q.sealed = false → q.sig.length = 64 := by
    intro hopen
    simp only [Request.unsigned, hopen] at hdoor
    have hchecks : refused = false ∧ q.seq ≠ 0 ∧ q.sig.length = 64 := by simpa using hdoor
    exact hchecks.2.2
  set P : State → Prop := fun s ↦ s.Sound H J loose ∧ s.serials = t.serials with hP
  refine Sat.bind (Q := fun o s ↦ P s ∧ o.identity = (q.order t.serials).identity ∧ o.Queueable H)
    ?_ fun o ↦ Sat.assume fun ⟨hidentity, hqueueable⟩ ↦ ?_
  · refine Sat.ite (fun hsealed ↦ ?_) fun hopen ↦ Sat.pure ?_
    · refine ((sealMaterial_spec H (q.order t.serials) t).returned
        (sealMaterial_returns H _)).conseq
        (fun _ hs ↦ hs) ?_ fun s hs ↦ hs ▸ h
      rintro o s ⟨⟨commit, rfl, -, -⟩, hsame, -, -, hhidden⟩
      refine ⟨⟨{ h with }, rfl⟩, hsame, fun hopen ↦ ?_, fun _ ↦ hhidden⟩
      rw [show o.sealed = q.sealed from congrArg Identity.sealed hsame, hsealed] at hopen
      cases hopen
    · rintro s rfl
      exact ⟨⟨h, rfl⟩, rfl, fun hopen ↦ hsig hopen, fun hsealed ↦ absurd hsealed hopen⟩
  refine Sat.bind (Q := fun _ ↦ P) ((readOnly_time H).sat.raising fun _ h ↦ h.1) fun now ↦ ?_
  refine Sat.bind (Q := fun _ ↦ State.Sound H J (o.identity :: loose)) (Sat.update fun s hs ↦ ?_)
    fun _ ↦ ?_
  · have hminted := hs.1.mint (i := o.identity)
      ((congrArg Identity.ref hidentity).trans hs.2.symm) (hidentity ▸ hadmits)
    exact { hminted with }
  refine Sat.bind (Q := fun _ ↦ State.Sound H J (o.identity :: loose)) (Sat.when (fun _ ↦ ?_)
    fun _ _ h ↦ h) fun _ ↦ ?_
  · exact (readOnly_submitSignedCommit H q o).sat.raising
      fun s h ↦ h.drop (List.subset_cons_self _ _)
  refine Sat.bind (Q := fun _ ↦ State.Sound H J (o.identity :: loose))
    (Sat.update fun s h ↦ { h with }) fun _ ↦ Sat.update fun s h ↦ ?_
  have hqueued : State.Sound H J (o.identity :: loose) { s with pending := s.pending ++ [o] } := by
    refine h.enqueue fun x hx ↦ (List.mem_append.mp hx).imp_right fun hx ↦ ?_
    rw [List.mem_singleton.mp hx]
    exact ⟨hqueueable, List.mem_cons_self⟩
  exact { hqueued.drop (List.subset_cons_self _ _) with }

end Place

end Jamswap.Builder
