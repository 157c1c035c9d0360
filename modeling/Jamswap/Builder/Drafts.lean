import Jamswap.Builder.Builds
import Jamswap.Builder.Encoding

/-!
# What a build submits

`draftRound` is a build between its gate and its submission: it plans the round, takes its orders
and assembles the record and the payload. `Draft` says what comes out, in terms of the mempool and
of the values read on the way: the sealed orders are ready orders of the pool, the public ones are
orders of the pool, the market orders at the band edge of a last price, above every floor and in
ascending seq per account, and record and payload are made from one list of each. `draftRound_spec`
says that every draft is of this kind.
-/

namespace Jamswap.Builder

open Library Engine Service Prog

/-- `_plan_round` and `_assemble_round`: the record and the payload a build goes on to submit. -/
def draftRound (H : Host) (now : Time) : B (Option (Round × Bytes)) := do
  let (plan, resting, raw, pruned) ← planStep H now
  forEach (fun o ↦ update fun s ↦ s.endTaken o .expired) plan.expired
  assembleRound H now raw pruned plan resting

/-! ### What a draft is made of -/

/-- Whatever the host reads under a key is related to it. -/
def Host.Reads (H : Host) (Read : Key → Bytes → Prop) : Prop :=
  ∀ n key v, H.read n key = some v → Read key v

/-- The host while the chain state is `st`. -/
def Host.on (H : Host) (st : Storage) : Host := { H with read := fun _ key ↦ some (st.getD key) }

theorem Host.reads_on (H : Host) (st : Storage) : (H.on st).Reads fun key v ↦ v = st.getD key := by
  intro n key v hv
  exact (Option.some.inj hv).symm

/-- A queued order as a round carries it: a limit order as it is, a market order at the band edge of
a last price. -/
inductive Priced (H : Host) (Read : Key → Bytes → Prop) (o : Order) : Order → Prop
  | limit (hlimit : o.otype = .limit) : Priced H Read o o
  | market (hmarket : o.otype = .market) (lp : Bytes) (hread : Read (.lp H.market) lp)
      (hlp : leValue lp ≠ 0) : Priced H Read o { o with price := marketPrice o.side (leValue lp) }

/-- The payload around a public section. -/
inductive PayloadFor (H : Host) (sec : Bytes) : List Order → Bytes → Prop
  | smatch : PayloadFor H sec [] (smatchPayload H.market H.base H.quote sec)
  | reveal (orders : List Order) (hsome : orders ≠ []) (hmode : H.encMode = false)
      (hlength : (orders.flatMap Order.reveal).length < 2 ^ 32) :
      PayloadFor H sec orders
        (revealPayload H.prims H.market H.base H.quote (orders.map Order.reveal) sec)
  | encrypted (orders : List Order) (payload : Bytes) (hsome : orders ≠ [])
      (hmode : H.encMode = true) (n : ℕ)
      (hround : H.committeeRound n sec (orders.map Order.ciphertext) = some payload) :
      PayloadFor H sec orders payload

/-- A record and a payload drafted from the orders of a pool and the book `raw`. -/
structure Draft (H : Host) (Read : Key → Bytes → Prop) (pool : List Order) (raw : Bytes)
    (rec : Round) (payload : Bytes) : Prop where
  record : rec = H.record rec.ref rec.t rec.sealedOrders rec.publicOrders rec.resting rec.pruned raw
    payload
  book : Read (.book H.market) raw
  resting : rec.resting = (parseBook raw).filter fun o ↦ o.pair ∉ rec.pruned
  pruned : ∀ p ∈ rec.pruned, p ∈ (parseBook raw).map Order.pair
  sealed_pool : rec.sealedOrders.Subperm pool
  isSealed : ∀ o ∈ rec.sealedOrders, o.sealed = true
  ready : ∀ o ∈ rec.sealedOrders, ∃ entries, Read H.setKey entries ∧
    H.consumedEntry o ∈ setEntries entries
  priced : ∀ o ∈ rec.publicOrders, ∃ o' ∈ pool, o'.sealed = false ∧ Priced H Read o' o
  above : ∀ o ∈ rec.publicOrders, ∃ floor, Read (.sq o.account) floor ∧
    leValue floor < o.seq.toNat
  increasing : rec.publicOrders.Pairwise fun a b ↦ a.account = b.account → a.seq < b.seq
  some_orders : ¬ (rec.sealedOrders = [] ∧ rec.publicOrders = [] ∧ rec.pruned = [])
  bytes : ∃ sec, publicSectionBytes rec.publicOrders rec.pruned raw = some sec ∧
    PayloadFor H sec rec.sealedOrders payload

section Specs

variable {H : Host} {Read : Key → Bytes → Prop}

theorem returns_storage (hread : H.Reads Read) (key : Key) : Returns (storage H key) (Read key) :=
  Returns.ask fun n v hv ↦ hread n key v hv

theorem returns_mstate (hread : H.Reads Read) (key : Key) :
    Returns (mstate H key) fun value ↦ ∃ v, Read key v ∧ value = leValue v :=
  Returns.bind (returns_storage hread key) fun v hv ↦ Returns.pure ⟨v, hv, rfl⟩

/-! ### Pricing and the seq discipline -/

theorem priceMarketOrders_returns (hread : H.Reads Read) {orders : List Order}
    (hobjects : ∀ o ∈ orders, ∀ o' ∈ orders, o.ref = o'.ref → o.otype = o'.otype) :
    Returns (priceMarketOrders H orders) fun out ↦
      ∀ o ∈ out.1, ∃ o' ∈ orders, Priced H Read o' o := by
  have hlimit : ∀ o ∈ orders, o.otype ≠ .market → ∃ o' ∈ orders, Priced H Read o' o := by
    intro o ho hother
    refine ⟨o, ho, Priced.limit ?_⟩
    cases htype : o.otype with
    | limit => rfl
    | market => exact absurd htype hother
  unfold priceMarketOrders
  refine Returns.ite (fun hnone ↦ Returns.pure fun o ho ↦ ?_) fun _ ↦ ?_
  · refine hlimit o ho fun hmarket ↦ ?_
    exact List.filter_eq_nil_iff.mp hnone o ho (decide_eq_true hmarket)
  · refine Returns.bind (returns_mstate hread _) ?_
    rintro _ ⟨lp, hlp, rfl⟩
    refine Returns.ite (fun _ ↦ Returns.pure fun o ho ↦ ?_) fun hpriced ↦ ?_
    · obtain ⟨ho, hother⟩ := List.mem_filter.mp ho
      exact hlimit o ho (of_decide_eq_true hother)
    · refine Returns.skip fun _ ↦ Returns.pure fun o ho ↦ ?_
      obtain ⟨x, hx, rfl⟩ := List.mem_map.mp ho
      split_ifs with href
      · obtain ⟨y, hy, hsame⟩ := List.mem_map.mp href
        obtain ⟨hy, hmarket⟩ := List.mem_filter.mp hy
        refine ⟨x, hx, Priced.market ?_ lp hlp hpriced⟩
        rw [← hobjects y hy x hx hsame]
        exact of_decide_eq_true hmarket
      · refine hlimit x hx fun hmarket ↦ href ?_
        exact List.mem_map_of_mem (List.mem_filter.mpr ⟨hx, decide_eq_true hmarket⟩)

/-- The orders a walk keeps, above the floors read and the running ones. -/
structure Sanitized (Read : Key → Bytes → Prop) (run : UInt32 → Option ℕ)
    (orders kept : List Order) : Prop where
  sublist : kept.Sublist orders
  above : ∀ o ∈ kept, ∃ floor, Read (.sq o.account) floor ∧ leValue floor < o.seq.toNat
  running : ∀ o ∈ kept, ∀ seq, run o.account = some seq → seq < o.seq.toNat
  increasing : kept.Pairwise fun a b ↦ a.account = b.account → a.seq < b.seq

theorem sanitizeEach_returns (hread : H.Reads Read) (orders : List Order)
    {floors run : UInt32 → Option ℕ}
    (hfloors : ∀ account floor, floors account = some floor →
      ∃ v, Read (.sq account) v ∧ floor = leValue v) :
    Returns (sanitizeEach H orders floors run) fun out ↦ Sanitized Read run orders out.1 := by
  induction orders generalizing floors run with
  | nil => exact Returns.pure ⟨List.Sublist.slnil, by simp, by simp, List.Pairwise.nil⟩
  | cons o orders ih =>
    unfold sanitizeEach
    refine Returns.bind (A := fun floor ↦ ∃ v, Read (.sq o.account) v ∧ floor = leValue v) ?_ ?_
    · cases hfloor : floors o.account with
      | some floor => exact Returns.pure (hfloors o.account floor hfloor)
      | none => exact returns_mstate hread _
    · rintro floor ⟨v, hv, rfl⟩
      have hfloors' : ∀ account floor,
          Function.update floors o.account (some (leValue v)) account = some floor →
            ∃ v, Read (.sq account) v ∧ floor = leValue v := by
        intro account floor hfloor
        rw [Function.update_apply] at hfloor
        split_ifs at hfloor with haccount
        · exact ⟨v, by rw [haccount]; exact hv, (Option.some.inj hfloor).symm⟩
        · exact hfloors account floor hfloor
      have hskip : ∀ why : Dead, Returns
          (sanitizeEach H orders (Function.update floors o.account (some (leValue v))) run >>=
            fun out ↦ pure (out.1, (o, why) :: out.2))
          fun out ↦ Sanitized Read run (o :: orders) out.1 :=
        fun why ↦ Returns.bind (ih hfloors') fun out hout ↦ Returns.pure
          ⟨hout.sublist.cons o, hout.above, hout.running, hout.increasing⟩
      refine Returns.ite (fun _ ↦ hskip _) fun habove ↦ Returns.ite (fun _ ↦ hskip _) fun hrun ↦ ?_
      refine Returns.bind (ih hfloors') fun out hout ↦
        Returns.pure ⟨hout.sublist.cons_cons o, ?_, ?_, ?_⟩
      · exact List.forall_mem_cons.mpr ⟨⟨v, hv, Nat.lt_of_not_le habove⟩, hout.above⟩
      · refine List.forall_mem_cons.mpr ⟨fun seq hseq ↦ ?_, fun x hx seq hseq ↦ ?_⟩
        · rw [hseq] at hrun
          exact Nat.lt_of_not_le hrun
        · by_cases haccount : x.account = o.account
          · have hlater := hout.running x hx o.seq.toNat (by rw [haccount, Function.update_self])
            rw [haccount] at hseq
            rw [hseq] at hrun
            exact (Nat.lt_of_not_le hrun).trans hlater
          · exact hout.running x hx seq (by rw [Function.update_of_ne haccount]; exact hseq)
      · refine List.pairwise_cons.mpr ⟨fun x hx haccount ↦ ?_, hout.increasing⟩
        refine UInt64.lt_iff_toNat_lt.mpr (hout.running x hx o.seq.toNat ?_)
        rw [← haccount, Function.update_self]

theorem seqSanitize_returns (hread : H.Reads Read) (orders : List Order) :
    Returns (seqSanitize H orders) fun out ↦ (∀ o ∈ out.1, o ∈ orders) ∧
      (∀ o ∈ out.1, ∃ floor, Read (.sq o.account) floor ∧ leValue floor < o.seq.toNat) ∧
      out.1.Pairwise fun a b ↦ a.account = b.account → a.seq < b.seq := by
  refine (sanitizeEach_returns hread _ fun account floor hfloor ↦ by cases hfloor).mono
    fun out hout ↦ ⟨fun o ho ↦ ?_, hout.above, hout.increasing⟩
  exact (List.perm_insertionSort _ _).mem_iff.mp (hout.sublist.subset ho)

/-! ### The payload -/

theorem keepCrossing_returns {sealedOrders publicOrders : List Order} (resting : List Order)
    (now : Time) (hsealed : ∀ o ∈ sealedOrders, o.sealed = true)
    (hpublic : ∀ o ∈ publicOrders, o.sealed = false) :
    Returns (keepCrossing sealedOrders publicOrders resting now) fun kept ↦
      kept.Sublist sealedOrders := by
  unfold keepCrossing
  refine Returns.ite (fun _ ↦ Returns.skip fun _ ↦ Returns.pure ?_) fun _ ↦
    Returns.pure (List.Sublist.refl _)
  rw [reveal_batch_eq_filter resting now hsealed hpublic]
  exact List.filter_sublist

theorem roundPayload_returns (orders : List Order) (sec : Bytes) :
    Returns (roundPayload H orders sec) (PayloadFor H sec orders) := by
  unfold roundPayload
  refine Returns.ite (fun hnone ↦ ?_) fun hsome ↦ Returns.ite (fun hmode ↦ ?_) fun hmode ↦ ?_
  · subst hnone
    refine Returns.pure ?_
    rw [show [Tag.smatch.byte] ++ H.header ++ sec = smatchPayload H.market H.base H.quote sec by
      simp [Host.header, smatchPayload, matchHeader]]
    exact PayloadFor.smatch
  · exact Returns.ask fun n payload hround ↦
      PayloadFor.encrypted orders payload hsome hmode n hround
  · refine Returns.ofOption fun payload hpayload ↦ ?_
    obtain ⟨commitsLen, hcommits, hpayload⟩ := Option.bind_eq_some_iff.mp hpayload
    obtain ⟨revealsLen, hreveals, hpayload⟩ := Option.bind_eq_some_iff.mp hpayload
    obtain ⟨-, rfl⟩ := pack32_spec hcommits
    obtain ⟨hlength, rfl⟩ := pack32_spec hreveals
    have hbytes : payload =
        revealPayload H.prims H.market H.base H.quote (orders.map Order.reveal) sec := by
      rw [← Option.some.inj hpayload]
      simp [revealPayload, Host.header, matchHeader, List.flatMap_map, ← List.flatMap_def]
    rw [hbytes]
    exact PayloadFor.reveal orders hsome (Bool.eq_false_iff.mpr hmode) hlength

/-! ### The draft -/

/-- What a plan takes from the pool. -/
structure Planned (H : Host) (Read : Key → Bytes → Prop) (pool : List Order) (plan : RoundPlan)
    (resting : List Order) (raw : Bytes) (pruned : List Pair) : Prop where
  book : Read (.book H.market) raw
  resting : resting = (parseBook raw).filter fun o ↦ o.pair ∉ pruned
  pruned : ∀ p ∈ pruned, p ∈ (parseBook raw).map Order.pair
  reveal : plan.reveal.Subperm pool
  isSealed : ∀ o ∈ plan.reveal, o.sealed = true
  ready : ∀ o ∈ plan.reveal, ∃ entries, Read H.setKey entries ∧
    H.consumedEntry o ∈ setEntries entries
  publicOrders : ∀ o ∈ plan.publicOrders, o ∈ pool ∧ o.sealed = false

variable {pool : List Order} {plan : RoundPlan} {resting : List Order} {raw : Bytes}
  {pruned : List Pair}

theorem assembleRound_returns (hread : H.Reads Read)
    (hobjects : ∀ o ∈ pool, ∀ o' ∈ pool, o.ref = o'.ref → o.otype = o'.otype) (now : Time)
    (hplan : Planned H Read pool plan resting raw pruned) :
    Returns (assembleRound H now raw pruned plan resting) fun out ↦
      ∀ rec payload, out = some (rec, payload) → Draft H Read pool raw rec payload := by
  unfold assembleRound
  refine Returns.bind (priceMarketOrders_returns hread fun o ho o' ho' ↦
    hobjects o (hplan.publicOrders o ho).1 o' (hplan.publicOrders o' ho').1) fun priced hpriced ↦ ?_
  refine Returns.bind (seqSanitize_returns hread priced.1) fun kept hkept ↦ ?_
  obtain ⟨hmem, habove, hincreasing⟩ := hkept
  refine Returns.skip fun claimed ↦ Returns.skip fun _ ↦ ?_
  set open' := kept.1.filter fun o ↦ o.key ∉ claimed with hopen
  have hpublic : ∀ o ∈ open', ∃ o' ∈ pool, o'.sealed = false ∧ Priced H Read o' o := by
    intro o ho
    obtain ⟨o', ho', hprice⟩ := hpriced o (hmem o (List.mem_of_mem_filter ho))
    exact ⟨o', (hplan.publicOrders o' ho').1, (hplan.publicOrders o' ho').2, hprice⟩
  have hunsealed : ∀ o ∈ open', o.sealed = false := by
    intro o ho
    obtain ⟨o', -, hsealed, hprice⟩ := hpublic o ho
    cases hprice with
    | limit _ => exact hsealed
    | market _ _ _ _ => exact hsealed
  have hreveal : (plan.reveal.filter fun o ↦ o.key ∉ claimed).Sublist plan.reveal :=
    List.filter_sublist
  refine Returns.bind (keepCrossing_returns resting now
    (fun o ho ↦ hplan.isSealed o (hreveal.subset ho)) hunsealed) fun sealedOrders hsealed ↦ ?_
  have hrevealed := hsealed.trans hreveal
  refine Returns.ite (fun _ ↦ ?_) fun hsome ↦ ?_
  · exact Returns.skip fun _ ↦ Returns.skip fun _ ↦ Returns.skip fun _ ↦
      Returns.pure fun rec payload hnone ↦ by cases hnone
  · refine Returns.bind (Returns.ofOption (A := fun sec ↦
      publicSectionBytes open' pruned raw = some sec) fun sec hsec ↦ hsec) fun sec hsec ↦ ?_
    refine Returns.bind (Returns.rescue (roundPayload_returns sealedOrders sec))
      fun payload hpayload ↦ ?_
    refine Returns.skip fun t ↦ Returns.skip fun s ↦ Returns.pure fun rec payload' hout ↦ ?_
    obtain ⟨hrec, rfl⟩ := Prod.mk.inj (Option.some.inj hout)
    subst hrec
    exact
      { record := rfl
        book := hplan.book
        resting := hplan.resting
        pruned := hplan.pruned
        sealed_pool := hrevealed.subperm.trans hplan.reveal
        isSealed := fun o ho ↦ hplan.isSealed o (hrevealed.subset ho)
        ready := fun o ho ↦ hplan.ready o (hrevealed.subset ho)
        priced := hpublic
        above := fun o ho ↦ habove o (List.mem_of_mem_filter ho)
        increasing := hincreasing.sublist List.filter_sublist
        some_orders := hsome
        bytes := ⟨sec, hsec, hpayload⟩ }

/-- The sealed orders a build may reveal have their entry in the set it read. -/
theorem sealedReadyPredicate_returns (entries : List Bytes) (fin : Finality)
    (finalEntries : Option (List Bytes)) :
    Returns (sealedReadyPredicate H entries fin finalEntries) fun ready ↦
      ∀ o, ready o = true → H.consumedEntry o ∈ entries := by
  unfold sealedReadyPredicate
  cases finalEntries with
  | some final => exact Returns.pure fun o ho ↦ (of_decide_eq_true ho).1
  | none =>
    refine Returns.skip fun _ ↦ Returns.skip fun s ↦ Returns.pure fun o ho ↦ ?_
    exact of_decide_eq_true (Bool.and_eq_true_iff.mp ho).1

/-- Deciding the round reads the pool as it is with the expiries attached. -/
theorem planStep_planned (hread : H.Reads Read) (now : Time) :
    Sat (fun s ↦ s.attachExpiry.pending = pool) (planStep H now)
      (fun out _ ↦ Planned H Read pool out.1 out.2.1 out.2.2.1 out.2.2.2) fun _ ↦ True := by
  set P : State → Prop := fun s ↦ s.attachExpiry.pending = pool with hP
  have hlook : ∀ {α : Type} {m : B α} {A : α → Prop}, ReadOnly m → Returns m A →
      Sat P m (fun a s ↦ P s ∧ A a) fun _ ↦ True := fun hm hA n s hs ↦
    ⟨fun a ha ↦ ⟨by rw [hm n s]; exact hs, hA n s a ha⟩, fun _ ↦ trivial⟩
  unfold planStep
  refine Sat.bind (hlook (ReadOnly.ask _) (returns_storage hread _)) fun raw ↦
    Sat.assume fun hraw ↦ ?_
  refine Sat.bind (hlook (ReadOnly.ask _) (Returns.any _)) fun t ↦ Sat.assume fun _ ↦
    Sat.current fun s₀ ↦ Sat.weaken (?_ : Sat P _ _ _) fun s h ↦ h.1
  dsimp only
  refine Sat.bind (hlook (ReadOnly.ask _) (returns_storage hread _)) fun entries ↦
    Sat.assume fun hentries ↦ ?_
  refine Sat.bind (hlook (ReadOnly.ask _) (Returns.any _)) fun fin ↦ Sat.assume fun _ ↦ ?_
  refine Sat.bind (hlook (ReadOnly.ite (ReadOnly.ask _) (ReadOnly.pure _)) (Returns.any _))
    fun finalRaw ↦ Sat.assume fun _ ↦ ?_
  refine Sat.bind (Q := fun ready s ↦ P s ∧ ∀ o, ready o = true →
    H.consumedEntry o ∈ setEntries entries) ?_ fun ready ↦ Sat.assume fun hready ↦ ?_
  · refine fun n s hs ↦ ⟨fun ready hvalue ↦ ⟨?_, ?_⟩, fun _ ↦ trivial⟩
    · unfold sealedReadyPredicate
      cases finalRaw.map setEntries with
      | some final => exact hs
      | none => exact hs
    · exact sealedReadyPredicate_returns _ _ _ n s ready hvalue
  refine Sat.bind (hlook (ReadOnly.ite ((ReadOnly.ask _).bind fun _ ↦ ReadOnly.pure _)
    (ReadOnly.pure _)) (Returns.any _)) fun committee ↦ Sat.assume fun _ ↦ ?_
  refine Sat.bind (Q := fun _ s ↦ s.pending = pool) (Sat.update fun s h ↦ h) fun _ ↦ ?_
  refine Sat.current fun s₁ ↦ Sat.ofEach fun s hs ↦ ?_
  obtain ⟨rfl, rfl⟩ := hs
  have hfit := fit_subperm H committee s.encCap
  refine Returns.sat (Returns.skip fun _ ↦ Returns.pure ⟨hraw, rfl, ?_, ?_, ?_, ?_, ?_⟩)
  · exact fun p hp ↦ List.mem_of_mem_filter hp
  · exact (List.sublist_append_left _ _).subperm.trans (batch_subperm hfit)
  · exact fun o ho ↦ (ready_of_reveal hfit ho).1
  · exact fun o ho ↦ ⟨entries, hentries, hready o (ready_of_reveal hfit ho).2⟩
  · exact fun o ho ↦ ⟨(batch_subperm hfit).subset (List.mem_append_right _ ho),
      open_of_public hfit ho⟩

/-- Every draft is made of orders of the pool, at prices and above floors that were read. -/
theorem draftRound_spec (hread : H.Reads Read) {now : Time} {n : ℕ} {s : State} {rec : Round}
    {payload : Bytes}
    (hobjects : ∀ o ∈ s.pending, ∀ o' ∈ s.pending, o.ref = o'.ref → o.otype = o'.otype)
    (hdraft : (draftRound H now n s).1 = some (some (rec, payload))) :
    ∃ raw, Draft H Read s.attachExpiry.pending raw rec payload := by
  have hattached : ∀ o ∈ s.attachExpiry.pending, ∀ o' ∈ s.attachExpiry.pending, o.ref = o'.ref →
      o.otype = o'.otype := by
    intro o ho o' ho' href
    obtain ⟨x, hx, rfl⟩ := List.mem_map.mp ho
    obtain ⟨y, hy, rfl⟩ := List.mem_map.mp ho'
    exact hobjects x hx y hy href
  have hsat : Sat (fun t ↦ t.attachExpiry.pending = s.attachExpiry.pending) (draftRound H now)
      (fun out _ ↦ ∀ rec payload, out = some (rec, payload) →
        ∃ raw, Draft H Read s.attachExpiry.pending raw rec payload) fun _ ↦ True := by
    refine Sat.bind (planStep_planned hread now) fun out ↦ Sat.ofEach fun _ hplan ↦ Returns.sat ?_
    refine Returns.skip fun _ ↦ (assembleRound_returns hread hattached now hplan).mono ?_
    exact fun out hout rec payload hsome ↦ ⟨_, hout rec payload hsome⟩
  exact (hsat n s rfl).1 _ hdraft rec payload rfl

end Specs

end Jamswap.Builder
