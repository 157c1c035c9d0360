import Jamswap.Builder.Mempool

/-!
# Registered rounds

`prepareRound` is a build up to the moment its round is registered for submission; what follows is
`submitRound` (`buildRound_eq`). Every round a run registers is a draft of sound orders
(`draft_of_registered`), and every record a run tracks was registered in it: whatever later happens
to the record, it is judged by what it said then (`records_registered`).
-/

namespace Jamswap.Builder

open Library Engine Service Prog

section Programs

variable (H : Host)

/-- Take the orders of one round and draft it. -/
def takeRound (now : Time) : B (Reply ⊕ (Round × Bytes)) := do
  let (plan, resting, raw, pruned) ← planStep H now
  let assembled ← rescue (do
    forEach (fun o ↦ update fun s ↦ s.endTaken o .expired) plan.expired
    assembleRound H now raw pruned plan resting) (update State.requeueUnsent)
  match assembled with
  | none => do
    update fun s ↦ { s with unsent := [], endedKeys := [] }
    pure (.inl .nothing)
  | some draft => pure (.inr draft)

/-- A build up to its submission: its answer, or the round it goes on to register. -/
def prepareRound : B (Reply ⊕ (Round × Bytes)) := do
  let s ← current
  match s.inflight with
  | some _ => pure (.inl .gated)
  | none => do
    let passed ← passGate H
    if passed then do
      let _ ← watchReleased H
      let now ← time H
      takeRound H now
    else pure (.inl .gated)

/-- The rest of a build: a prepared round is registered and submitted. -/
def concludeBuild : Reply ⊕ (Round × Bytes) → B Reply
  | .inl reply => pure reply
  | .inr (rec, payload) => submitRound H rec payload

theorem buildRound_eq : buildRound H = prepareRound H >>= concludeBuild H := by
  unfold buildRound prepareRound takeRound
  rw [Prog.bind_assoc]
  congr 1
  funext s
  cases s.inflight with
  | some fr => rfl
  | none =>
    simp only [Prog.bind_assoc]
    congr 1
    funext passed
    cases passed with
    | false => rfl
    | true =>
      simp only [if_true, Prog.bind_assoc]
      congr 1; funext _; congr 1; funext now; congr 1; funext out; congr 1; funext assembled
      cases assembled with
      | none => rfl
      | some draft => rfl

end Programs

/-! ### What a build prepares -/

/-- The host answered a read of the key with this value. -/
def Host.Answered (H : Host) (key : Key) (v : Bytes) : Prop := ∃ n, H.read n key = some v

theorem Host.reads_answered (H : Host) : H.Reads H.Answered := fun n _ _ hv ↦ ⟨n, hv⟩

/-- A prepared round is a draft of sound orders, which the build still has in hand. -/
def Prepared (H : Host) (J : Demands) : Reply ⊕ (Round × Bytes) → State → Prop
  | .inl _, s => s.Sound H J []
  | .inr (rec, payload), s => ∃ pool raw, Draft H H.Answered pool raw rec payload ∧
      (∀ o ∈ pool, o.Queueable H) ∧ s.Sound H J (pool.map Order.identity)

variable {payload : Bytes} {rec : Round}

section Specs

variable (H : Host) {J : Demands}

theorem takeRound_prepared (now : Time) :
    Sat (State.Sound H J []) (takeRound H now) (Prepared H J) (State.Sound H J []) := by
  refine Sat.ofEach fun t ht ↦ ?_
  set pool := t.attachExpiry.pending with hpool
  set loose := pool.map Order.identity with hloose
  have hqueueable : ∀ o ∈ pool, o.Queueable H := by
    intro o ho
    obtain ⟨x, hx, rfl⟩ := List.mem_map.mp ho
    have hsound := ht.queueable x (State.mem_stock.mpr (Or.inl hx))
    exact ⟨hsound.sig, hsound.hidden⟩
  have hheld : t.Sound H J loose := by
    refine ht.hold fun i hi ↦ ?_
    obtain ⟨o, ho, rfl⟩ := List.mem_map.mp hi
    obtain ⟨x, hx, rfl⟩ := List.mem_map.mp ho
    exact (ht.of_stock (State.mem_stock.mpr (Or.inl hx))).2
  have hobjects : ∀ o ∈ pool, ∀ o' ∈ pool, o.ref = o'.ref → o.otype = o'.otype := by
    intro o ho o' ho' href
    have hsame := hheld.distinct o.identity (List.mem_append_right _ (List.mem_map_of_mem ho))
      o'.identity (List.mem_append_right _ (List.mem_map_of_mem ho')) href
    exact congrArg Identity.otype hsame
  have hforget : ∀ s : State, s.Sound H J loose → s.Sound H J [] := fun s h ↦
    h.drop (List.nil_subset _)
  have hplanned : Sat (fun s ↦ s.attachExpiry.pending = pool) (planStep H now)
      (fun out _ ↦ Planned H H.Answered pool out.1 out.2.1 out.2.2.1 out.2.2.2) fun _ ↦ True :=
    planStep_planned H.reads_answered now
  unfold takeRound
  refine Sat.bind (((planStep_sound H now).and hplanned).conseq
    ?_ (fun _ _ h ↦ h) fun s h ↦ hforget s h.1) fun out ↦ Sat.assume fun hplan ↦ ?_
  · rintro s rfl
    exact ⟨hheld, rfl⟩
  have hreveal : ∀ o ∈ out.1.reveal, o.Queueable H ∧ o.identity ∈ loose := fun o ho ↦
    ⟨hqueueable o (hplan.reveal.subset ho), List.mem_map_of_mem (hplan.reveal.subset ho)⟩
  have hpublic : ∀ o ∈ out.1.publicOrders, o.sealed = false ∧ o.identity ∈ loose := fun o ho ↦
    ⟨(hplan.publicOrders o ho).2, List.mem_map_of_mem (hplan.publicOrders o ho).1⟩
  have hdraft := assembleRound_returns H.reads_answered hobjects now hplan
  have hassemble : Keeps (State.Sound H J loose) (do
      forEach (fun o ↦ update fun s ↦ s.endTaken o .expired) out.1.expired
      assembleRound H now out.2.2.1 out.2.2.2 out.1 out.2.1 : B (Option (Round × Bytes))) :=
    Keeps.bind (Sat.forEach fun o _ ↦ endTaken_sound H o _) fun _ ↦
      assembleRound_sound H now _ _ _ hreveal hpublic
  refine Sat.bind (Sat.rescue (hassemble.returned (Returns.skip fun _ ↦ hdraft)) ?_)
    fun assembled ↦ Sat.assume fun hdrafted ↦ ?_
  · refine Sat.update fun s h ↦ hforget _ (h.move rfl rfl (fun o ho ↦ State.mem_stock.mpr ?_)
      fun fr hfr ↦ ⟨fr, hfr, rfl, rfl⟩)
    rcases ho with ho | ho
    · rcases List.mem_append.mp ho with ho | ho
      · exact Or.inr (Or.inr (List.mem_of_mem_filter ho))
      · exact Or.inl ho
    · cases ho
  · cases assembled with
    | none =>
      refine Sat.bind (Q := fun _ ↦ State.Sound H J []) (Sat.update fun s h ↦ ?_) fun _ ↦
        Sat.pure fun s h ↦ h
      refine hforget _ (h.move rfl rfl (fun o ho ↦ State.mem_stock.mpr ?_) fun fr hfr ↦
        ⟨fr, hfr, rfl, rfl⟩)
      rcases ho with ho | ho
      · exact Or.inl ho
      · cases ho
    | some draft =>
      exact Sat.pure fun s h ↦ ⟨pool, _, hdrafted draft.1 draft.2 rfl, hqueueable, h⟩

theorem passGate_sound : Keeps (State.Sound H J []) (passGate H) := by
  unfold passGate
  refine Keeps.current fun s ↦ ?_
  cases s.roundGate with
  | none => exact (ReadOnly.pure _).sat
  | some start =>
    refine Keeps.bind (readOnly_time H).sat fun now ↦
      Sat.ite (fun _ ↦ (ReadOnly.pure _).sat) fun _ ↦ ?_
    exact Keeps.bind (Keeps.update fun s h ↦ { h with }) fun _ ↦ (ReadOnly.pure _).sat

theorem prepareRound_prepared :
    Sat (State.Sound H J []) (prepareRound H) (Prepared H J) (State.Sound H J []) := by
  unfold prepareRound
  refine Sat.current fun t ↦ Sat.weaken (?_ : Sat (State.Sound H J []) _ _ _) fun s h ↦ h.1
  cases t.inflight with
  | some fr => exact Sat.pure fun s h ↦ h
  | none =>
    refine Sat.bind (passGate_sound H) fun passed ↦ Sat.ite (fun _ ↦ ?_) fun _ ↦
      Sat.pure fun s h ↦ h
    refine Sat.bind (watchReleased_sound H) fun _ ↦ Sat.bind (readOnly_time H).sat fun now ↦ ?_
    exact takeRound_prepared H now

variable {H}

/-- The orders of a draft are those of its pool, re-priced at most. -/
theorem Draft.orders_sound {Read : Key → Bytes → Prop} {pool : List Order} {raw : Bytes}
    (d : Draft H Read pool raw rec payload) (hpool : ∀ o ∈ pool, o.Queueable H) :
    ∀ o ∈ rec.orders, o.Queueable H ∧ o.identity ∈ pool.map Order.identity := by
  intro o ho
  rcases List.mem_append.mp ho with ho | ho
  · have hmem := d.sealed_pool.subset ho
    exact ⟨hpool o hmem, List.mem_map_of_mem hmem⟩
  · obtain ⟨o', hmem, hopen, hpriced⟩ := d.priced o ho
    have hsound := hpool o' hmem
    cases hpriced with
    | limit _ => exact ⟨hsound, List.mem_map_of_mem hmem⟩
    | market _ _ _ _ =>
      refine ⟨⟨hsound.sig, fun hsealed ↦ ?_⟩, List.mem_map.mpr ⟨o', hmem, rfl⟩⟩
      rw [show o'.sealed = true from hsealed] at hopen
      cases hopen

variable (H)

/-- A prepared round is put in flight, and taken back when it is refused. -/
theorem submitRound_sound (hjudged : J.judged rec.judged) :
    Sat (Prepared H J (.inr (rec, payload))) (submitRound H rec payload)
      (fun _ ↦ State.Sound H J []) (State.Sound H J []) := by
  refine Sat.ofEach ?_
  rintro t ⟨pool, raw, d, hpool, h⟩
  have horders := d.orders_sound hpool
  set loose := pool.map Order.identity
  refine Sat.weaken (?_ : Sat (State.Sound H J loose) _ _ _) fun s hs ↦ hs ▸ h
  have hforget : ∀ s : State, s.Sound H J loose → s.Sound H J [] := fun s h ↦
    h.drop (List.nil_subset _)
  unfold submitRound
  refine Sat.bind (Q := fun _ ↦ State.Sound H J loose) (Sat.update fun s h ↦ { h with }) fun _ ↦ ?_
  refine Sat.bind (Q := fun _ ↦ State.Sound H J loose) (Sat.update fun s h ↦ ?_) fun _ ↦ ?_
  · refine h.next rfl (fun o ho ↦ ?_) (fun _ ho ↦ h.of_retry ho) (fun fr hfr ↦ ?_)
      (List.subset_append_right _ _)
    · rcases State.mem_stock.mp ho with hqueue | ⟨fr, hfr, hmem⟩ | hunsent
      · exact h.of_stock (State.mem_stock.mpr (Or.inl hqueue))
      · rcases List.mem_cons.mp hfr with rfl | hfr
        · exact ⟨(horders o hmem).1, List.mem_append_right _ (horders o hmem).2⟩
        · exact h.of_stock (State.mem_stock.mpr
            (Or.inr (Or.inl ⟨fr, List.mem_append_right _ hfr, hmem⟩)))
      · cases hunsent
    · rcases List.mem_cons.mp hfr with rfl | hfr
      · exact hjudged
      · exact h.judged fr (List.mem_append_right _ hfr)
  refine Sat.bind (Sat.answer fun _ _ h ↦ h) fun sent ↦ ?_
  have hqueued : Sat (State.Sound H J loose) (do
      update fun s ↦ s.dropSame rec.rid
      pure Reply.queued : B Reply) (fun _ ↦ State.Sound H J []) (State.Sound H J []) := by
    refine Sat.bind (Q := fun _ ↦ State.Sound H J []) (Sat.update fun s h ↦ hforget _ ?_) fun _ ↦
      Sat.pure fun s h ↦ h
    refine h.move rfl rfl (fun o ho ↦ State.mem_stock.mpr (ho.imp_right Or.inr)) fun fr hfr ↦ ?_
    exact ⟨fr, (List.filter_sublist.append_left _).subset hfr, rfl, rfl⟩
  cases sent with
  | accepted | failed => exact hqueued
  | busy =>
    refine Sat.bind (Sat.answer fun _ _ h ↦ h) fun now ↦ ?_
    refine Sat.bind (Q := fun _ ↦ State.Sound H J []) (Sat.update fun s h ↦ hforget _ ?_) fun _ ↦
      Sat.pure fun s h ↦ h
    have hback : State.Sound H J loose { s with pending := rec.orders ++ s.pending } :=
      h.enqueue fun o ho ↦ (List.mem_append.mp ho).symm.imp_right (horders o)
    refine hback.move rfl rfl (fun o ho ↦ State.mem_stock.mpr (ho.imp_right Or.inr)) fun fr hfr ↦ ?_
    exact ⟨fr, List.mem_append_right _ hfr, rfl, rfl⟩

end Specs

/-! ### Runs -/

/-- A build of the run registers the round for submission, with its payload. -/
def Registered (H : Host) (actions : List Action) (rec : Round) (payload : Bytes) : Prop :=
  ∃ before after, actions = before ++ Action.build :: after ∧
    (prepareRound H (before.foldl (step H) (0, {})).1 (before.foldl (step H) (0, {})).2).1 =
      some (.inr (rec, payload))

section Runs

variable (H : Host) {J : Demands}

/-- Every step but a build keeps the records there are, and a build adds what it prepared. -/
theorem step_sound (w : ℕ × State) (a : Action) (h : w.2.Sound H J [])
    (hplace : ∀ q, a = .place q → J.name q.pair ∧ (q.sealed = false → J.signed q.pair q.seq))
    (hbuild : a = .build → ∀ rec payload,
      (prepareRound H w.1 w.2).1 = some (.inr (rec, payload)) → J.judged rec.judged) :
    (step H w a).2.Sound H J [] := by
  cases a with
  | place q => exact (placeOrder_sound H (hplace q rfl)).final w.1 h
  | cancel p => exact (cancelPending_sound H p).final w.1 h
  | sweep => exact (resolveRoundsOnce_sound H).final w.1 h
  | build =>
    have hstep : (step H w .build).2 = (buildRound H w.1 w.2).2.2 := by
      show ((buildRound H >>= fun _ ↦ pure ()) w.1 w.2).2.2 = _
      cases hreply : (buildRound H w.1 w.2).1 with
      | none => rw [bind_of_none _ hreply]
      | some reply =>
        rw [bind_of_some _ hreply]
        rfl
    obtain ⟨hprepared, hraised⟩ := prepareRound_prepared (J := J) H w.1 w.2 h
    rw [hstep, buildRound_eq]
    cases hvalue : (prepareRound H w.1 w.2).1 with
    | none =>
      rw [bind_of_none _ hvalue]
      exact hraised hvalue
    | some prepared =>
      rw [bind_of_some _ hvalue]
      cases prepared with
      | inl reply => exact hprepared _ hvalue
      | inr draft =>
        exact (submitRound_sound H (hbuild rfl draft.1 draft.2 hvalue)).final _
          (hprepared _ hvalue)

theorem Registered.mono {actions : List Action} {rec : Round} {payload : Bytes}
    (h : Registered H actions rec payload) (a : Action) :
    Registered H (actions ++ [a]) rec payload := by
  obtain ⟨before, after, rfl, hprepared⟩ := h
  exact ⟨before, after ++ [a], by simp, hprepared⟩

/-- Any order is admitted, and every record is judged as one the run registered. -/
def registeredOnly (actions : List Action) : Demands where
  name _ := True
  signed _ _ := True
  judged j := ∃ rec payload, Registered H actions rec payload ∧ rec.judged = j

/-- In a run every order is sound, and every record is judged as one the run registered. -/
theorem sound_run (actions : List Action) :
    (run H actions).Sound H (registeredOnly H actions) [] := by
  induction actions using List.reverseRecOn with
  | nil =>
    show State.Sound H _ [] {}
    constructor <;> simp [State.identities, State.stock, State.records]
  | append_singleton actions a ih =>
    have hkept : (run H actions).Sound H (registeredOnly H (actions ++ [a])) [] :=
      { ih with
        judged := fun fr hfr ↦ by
          obtain ⟨rec, payload, hreg, hjudged⟩ := ih.judged fr hfr
          exact ⟨rec, payload, hreg.mono H a, hjudged⟩ }
    rw [run, List.foldl_append]
    refine step_sound H _ a hkept (fun _ _ ↦ ⟨trivial, fun _ ↦ trivial⟩) ?_
    rintro rfl rec payload hprepared
    exact ⟨rec, payload, ⟨actions, [], rfl, hprepared⟩, rfl⟩

variable {H}

/-- Every registered round is a draft of sound orders. -/
theorem draft_of_registered {actions : List Action} (h : Registered H actions rec payload) :
    ∃ pool raw, Draft H H.Answered pool raw rec payload ∧ ∀ o ∈ pool, o.Queueable H := by
  obtain ⟨before, after, -, hprepared⟩ := h
  obtain ⟨pool, raw, d, hpool, -⟩ :=
    (prepareRound_prepared H _ _ (sound_run H before)).1 _ hprepared
  exact ⟨pool, raw, d, hpool⟩

end Runs

end Jamswap.Builder
