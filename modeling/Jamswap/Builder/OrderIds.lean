import Jamswap.Builder.Lifecycle
import Jamswap.Builder.Registration
import Jamswap.Service.Atomicity
import Jamswap.Service.Custody
import Jamswap.Service.Landing
import Jamswap.Service.Remainders

/-!
# Order ids over the life of a market

The builder numbers orders from a counter in its own memory. `World` puts one market's builder
beside the chain its rounds settle on: public orders get an id as they pass the door, sealed ones
come with the id they were prepared under, rounds that were built may settle at any time, and the
process may be restarted, which forgets everything but the chain.

The ids taken at the door are logged (`World.taken`). As long as the process keeps running, every
order there is, resting, queued or in a round, is under one of those ids, and no two of them are the
same (`live_ids_distinct`). A restart sets the counter back while the book keeps its orders, and the
next order placed gets the id of one that rests (`restarted_ids_collide`).
-/

namespace Jamswap.Builder

open Library Engine Service Committee Prog

/-! ### The builder beside its chain -/

/-- The host while the chain holds `st`: a read fails, or gives what is stored. -/
def Host.seeing (H : Host) (st : Storage) : Host :=
  { H with read := fun n key ↦ (H.read n key).map fun _ ↦ st.getD key }

/-- An order's id as it was taken: the account it is for and, for a public order, the seq its owner
signed. -/
structure Name where
  account : UInt32
  oid : ℕ
  seq : UInt64 := 0
  deriving DecidableEq

def Name.pair (n : Name) : Pair := (n.account, n.oid)

/-- One market's builder, and the chain. -/
structure World where
  chain : Storage
  /-- number of the next interaction -/
  clock : ℕ := 0
  builder : State := {}
  nextOid : ℕ := 1000
  sealDrafts : List Request := []
  /-- payloads of the rounds built so far -/
  submitted : List Bytes := []
  /-- the ids orders took, latest first; a restart does not touch this record -/
  taken : List Name := []

/-- What can happen to a market. Ids are the builder's choice, so those of a public or a prepared
order are not read from the request. -/
inductive MarketMove
  | placePublic (request : Request)
  | prepareSealed (request : Request)
  | placeSealed (request : Request)
  | takeElsewhere
  | cancel (order : Pair)
  | build
  | sweep
  | settle (item : WorkItem)
  | restart

section Moves

variable (H : Host)

/-- The builder takes a step. -/
def World.act (w : World) (a : Action) : World :=
  let out := step (H.seeing w.chain) (w.clock, w.builder) a
  { w with clock := out.1, builder := out.2 }

/-- The payload a build submits now, if it gets that far. -/
def World.payloads (w : World) : List Bytes :=
  match (prepareRound (H.seeing w.chain) w.clock w.builder).1 with
  | some (.inr draft) => [draft.2]
  | _ => []

/-- The item is one of the builder's rounds, or no round. -/
def World.maySettle (w : World) (item : WorkItem) : Bool :=
  w.submitted.contains item.payload.val || !(tagOf item.payload.val).any Tag.isRound

/-- One move. Requests for sealed orders that fail before their draft is looked up change nothing
and are no moves; the material of a draft is made when its order is placed. -/
def World.next (w : World) : MarketMove → World
  | .placePublic request =>
    let q := { request with oid := w.nextOid, sealed := false }
    let w' := w.act H (.place q)
    -- `next_oid` moves on only once every check at the door has passed
    if H.refuses w.clock || q.unsigned then w'
    else { w' with
      nextOid := w.nextOid + 1
      taken := ⟨q.account, q.oid, q.seq⟩ :: w.taken }
  | .prepareSealed request => { w with
      nextOid := w.nextOid + 1
      sealDrafts := { request with oid := w.nextOid, sealed := true } :: w.sealDrafts }
  | .placeSealed request =>
    match w.sealDrafts.find? fun d ↦ d.oid = request.oid with
    | none => w
    | some draft =>
      -- the draft is popped whatever becomes of the request
      let w' := { w with sealDrafts := w.sealDrafts.filter fun d ↦ d.oid ≠ request.oid }
      if draft.account = request.account then
        { w'.act H (.place { request with price := draft.price, qty := draft.qty, sealed := true })
          with taken := ⟨request.account, request.oid, 0⟩ :: w.taken }
      else w'
  | .takeElsewhere => { w with nextOid := w.nextOid + 1 }
  | .cancel p => w.act H (.cancel p)
  | .build => { w.act H .build with submitted := w.payloads H ++ w.submitted }
  | .sweep => w.act H .sweep
  | .settle item =>
    if w.maySettle item then { w with chain := (deliver H.prims w.chain item).1 } else w
  | .restart => { w with builder := {}, nextOid := 1000, sealDrafts := [] }

/-- A market from its start. -/
def World.run (moves : List MarketMove) : World :=
  moves.foldl (World.next H) { chain := Store.empty }

/-- The orders that rest on the book, are queued or in a round, or wait to be sealed anew. -/
def World.live (w : World) : List Pair :=
  (parseBook (w.chain.getD (.book H.market)) ++ w.builder.stock ++ w.builder.carryRetry).map
    Order.pair

/-- Every live order took its id at the door, no two live orders took the same, and none rests
twice. -/
def World.DistinctIds (w : World) : Prop :=
  (∀ p ∈ w.live H, p ∈ w.taken.map Name.pair) ∧
  ((w.taken.filter fun n ↦ n.pair ∈ w.live H).map Name.oid).Nodup ∧
  ((parseBook (w.chain.getD (.book H.market))).map Order.oid).Nodup

end Moves

/-! ### What holds of a market -/

/-- The resting order took its id at the door, at a seq the account's floor has reached. -/
def Stands (taken : List Name) (st : Storage) (e : Engine.Order) : Prop :=
  ∃ n ∈ taken, n.account = e.account ∧ n.oid = e.id.toNat ∧ n.seq ≤ getU64 st (.sq e.account)

/-- A book of orders that took their ids at the door, each resting once. -/
structure Standing (taken : List Name) (st : Storage) (book : List Engine.Order) : Prop where
  named : ∀ e ∈ book, Stands taken st e
  ids : (book.map Engine.Order.id).Nodup

/-- What a round may bring to the book: orders that stand there, and new ones under ids taken with
their seqs. -/
structure Landable (taken : List Name) (st : Storage) (ps : PublicSection) : Prop where
  book : ∀ e ∈ ps.book, Stands taken st e
  admitted : ∀ a ∈ ps.admitted, a.2.account = a.1.account ∧
    ⟨a.1.account, a.1.id.toNat, a.2.seq⟩ ∈ taken
  ids : ((ps.book ++ ps.newOrders).map Engine.Order.id).Nodup

/-- Orders are under the ids taken, public ones with the seq they were taken with. -/
def demands (taken : List Name) : Demands where
  name p := p ∈ taken.map Name.pair
  signed p seq := ⟨p.1, p.2, seq⟩ ∈ taken
  judged _ := True

/-- Ids handed out by a counter that is now at `next`. -/
structure HandedOut (next : ℕ) (ids : List ℕ) : Prop where
  nodup : ids.Nodup
  below : ∀ oid ∈ ids, oid < next

structure World.Sound (H : Host) (w : World) : Prop where
  counter : HandedOut w.nextOid (w.taken.map Name.oid ++ w.sealDrafts.map Request.oid)
  builder : w.builder.Sound H (demands w.taken) []
  book : Standing w.taken w.chain (decodeOrders (w.chain.getD (.book H.market)))
  rounds : ∀ payload ∈ w.submitted, payload.length ≤ maxInput →
    ∀ inp, roundInput H.prims payload = some inp → Landable w.taken w.chain inp.ps

variable {oid : ℕ} {J : Demands} {st : Storage} {q : Request} {n : Name} {inp : RoundInput}

section Counter

variable {next : ℕ} {ids ids' : List ℕ}

theorem HandedOut.fresh (h : HandedOut next ids) (hperm : ids'.Perm (next :: ids)) :
    HandedOut (next + 1) ids' := by
  constructor
  · rw [hperm.nodup_iff, List.nodup_cons]
    exact ⟨fun hmem ↦ Nat.lt_irrefl _ (h.below next hmem), h.nodup⟩
  · intro oid hoid
    rcases List.mem_cons.mp (hperm.subset hoid) with rfl | hold
    · exact Nat.lt_succ_self _
    · exact (h.below oid hold).trans (Nat.lt_succ_self _)

theorem HandedOut.skip (h : HandedOut next ids) : HandedOut (next + 1) ids :=
  ⟨h.nodup, fun oid hoid ↦ (h.below oid hoid).trans (Nat.lt_succ_self _)⟩

theorem HandedOut.tail (h : HandedOut next (oid :: ids)) : HandedOut next ids :=
  ⟨(List.nodup_cons.mp h.nodup).2, fun id hid ↦ h.below id (List.mem_cons_of_mem _ hid)⟩

/-- An id moves from one list to the other. -/
theorem HandedOut.move {drafts : List ℕ} (h : HandedOut next (ids ++ drafts))
    (hoid : oid ∈ drafts) : HandedOut next (oid :: ids ++ drafts.filter (· ≠ oid)) := by
  obtain ⟨hids, hdrafts, hapart⟩ := List.nodup_append.mp h.nodup
  have hsub : (ids ++ drafts.filter (· ≠ oid)).Sublist (ids ++ drafts) :=
    List.filter_sublist.append_left _
  constructor
  · refine List.nodup_cons.mpr ⟨fun hmem ↦ ?_, h.nodup.sublist hsub⟩
    rcases List.mem_append.mp hmem with hmem | hmem
    · exact hapart oid hmem oid hoid rfl
    · simp at hmem
  · rw [List.cons_append, List.forall_mem_cons]
    exact ⟨h.below oid (List.mem_append_right _ hoid), fun id hid ↦ h.below id (hsub.subset hid)⟩

end Counter

section Growth

variable {taken taken' : List Name} {st st' : Storage} {e : Engine.Order} {ps : PublicSection}

/-- More ids are taken, and floors rise. -/
structure Onward (taken taken' : List Name) (st st' : Storage) : Prop where
  taken : taken ⊆ taken'
  floors : ∀ account, getU64 st (.sq account) ≤ getU64 st' (.sq account)

theorem Onward.take (n : Name) (taken : List Name) (st : Storage) :
    Onward taken (n :: taken) st st :=
  ⟨List.subset_cons_self _ _, fun _ ↦ UInt64.le_refl _⟩

theorem Onward.deliver (P : Primitives) (taken : List Name) (st : Storage) (item : WorkItem) :
    Onward taken taken st (deliver P st item).1 :=
  ⟨List.Subset.refl _, fun account ↦ floor_le_deliver P st item (l := .order account) rfl⟩

theorem Stands.onward (h : Stands taken st e) (honward : Onward taken taken' st st') :
    Stands taken' st' e := by
  obtain ⟨n, hn, haccount, hoid, hseq⟩ := h
  exact ⟨n, honward.taken hn, haccount, hoid, UInt64.le_trans hseq (honward.floors _)⟩

theorem Standing.onward {book : List Engine.Order} (h : Standing taken st book)
    (honward : Onward taken taken' st st') : Standing taken' st' book :=
  ⟨fun e he ↦ (h.named e he).onward honward, h.ids⟩

theorem Landable.onward (h : Landable taken st ps) (honward : Onward taken taken' st st') :
    Landable taken' st' ps :=
  ⟨fun e he ↦ (h.book e he).onward honward,
    fun a ha ↦ ⟨(h.admitted a ha).1, honward.taken (h.admitted a ha).2⟩, h.ids⟩

end Growth

/-! ### The builder's steps -/

section Builder

variable {H : Host} {taken taken' : List Name} {loose : List Identity} {s : State} {w : World}

/-- What is asked of the builder's orders does not depend on what the host reads. -/
theorem State.Sound.seeing (h : s.Sound H J loose) (st : Storage) : s.Sound (H.seeing st) J loose :=
  { h with
    queueable := fun o ho ↦ ⟨(h.queueable o ho).sig, (h.queueable o ho).hidden⟩
    retry := fun o ho ↦ ⟨(h.retry o ho).isSealed, (h.retry o ho).hidden⟩ }

theorem State.Sound.of_seeing (h : s.Sound (H.seeing st) J loose) : s.Sound H J loose :=
  { h with
    queueable := fun o ho ↦ ⟨(h.queueable o ho).sig, (h.queueable o ho).hidden⟩
    retry := fun o ho ↦ ⟨(h.retry o ho).isSealed, (h.retry o ho).hidden⟩ }

theorem State.Sound.taking (h : s.Sound H (demands taken) loose) (hsub : taken ⊆ taken') :
    s.Sound H (demands taken') loose :=
  { h with
    admitted := fun i hi ↦ ⟨List.map_subset _ hsub (h.admitted i hi).1,
      fun hopen ↦ hsub ((h.admitted i hi).2 hopen)⟩
    judged := fun _ _ ↦ trivial }

/-- A step of the builder keeps its orders under the ids taken, those of an order it places
included. -/
theorem World.builder_act (h : w.builder.Sound H (demands w.taken) []) (hsub : w.taken ⊆ taken')
    (a : Action) (hplace : ∀ q, a = .place q → (demands taken').name q.pair ∧
      (q.sealed = false → (demands taken').signed q.pair q.seq)) :
    (w.act H a).builder.Sound H (demands taken') [] :=
  (step_sound (H.seeing w.chain) (w.clock, w.builder) a ((h.taking hsub).seeing w.chain) hplace
    fun _ _ _ _ ↦ trivial).of_seeing

/-- A request turned away at the door changes nothing. -/
theorem step_of_refused {n : ℕ} (h : (H.refuses n || q.unsigned) = true) :
    (step H (n, s) (.place q)).2 = s := by
  have hasked : ((ask fun n ↦ some (H.refuses n) : B Bool) n s).1 = some (H.refuses n) := rfl
  show (placeOrder H q n s).2.2 = s
  unfold placeOrder
  rw [bind_of_some _ hasked, if_pos h]
  rfl

end Builder

/-! ### What a build drafts -/

section Build

variable {H : Host} {S : ScalarOps H.prims.curve} {w : World} {pool : List Order}
  {raw payload : Bytes} {rec : Round}

theorem Host.answered_seeing {key : Key} {v : Bytes} (h : (H.seeing st).Answered key v) :
    v = st.getD key := by
  obtain ⟨n, hread⟩ := h
  obtain ⟨_, -, rfl⟩ := Option.map_eq_some_iff.mp hread
  rfl

theorem World.Sound.eq_of_oid (h : w.Sound H) {n' : Name} (hn : n ∈ w.taken) (hn' : n' ∈ w.taken)
    (hoid : n.oid = n'.oid) : n = n' :=
  List.inj_on_of_nodup_map (List.nodup_append.mp h.counter.nodup).1 hn hn' hoid

/-- The name a public order of a draft was taken under. -/
def Order.name (o : Order) : Name := ⟨o.account, o.oid, o.seq⟩

/-- A draft of the builder's orders on the chain's book brings nothing to the book but what stands
there and orders under ids of their own. -/
theorem World.Sound.landable (h : w.Sound H)
    (d : Draft (H.seeing w.chain) (H.seeing w.chain).Answered pool raw rec payload)
    (hpool : ∀ o ∈ pool, (demands w.taken).Admits o.identity)
    (hfit : ∀ o ∈ rec.publicOrders, o.Fits) :
    Landable w.taken w.chain (H.draftInput rec raw).ps := by
  have hraw : raw = w.chain.getD (.book H.market) := Host.answered_seeing d.book
  have htaken : ∀ o ∈ rec.publicOrders, o.name ∈ w.taken := by
    intro o ho
    obtain ⟨o', ho', hopen, hpriced⟩ := d.priced o ho
    have hsigned := (hpool o' ho').2 hopen
    cases hpriced with
    | limit _ => exact hsigned
    | market _ _ _ _ => exact hsigned
  have hwire : ∀ o ∈ rec.publicOrders, o.wire.id.toNat = o.oid := fun o ho ↦
    (UInt32.toNat_ofNat' ).trans (Nat.mod_eq_of_lt (hfit o ho).oid)
  have hbook : Standing w.taken w.chain (H.draftInput rec raw).ps.book := by
    have hkept : (H.draftInput rec raw).ps.book.Sublist
        (decodeOrders (w.chain.getD (.book H.market))) := hraw ▸ List.filter_sublist
    exact ⟨fun e he ↦ h.book.named e (hkept.subset he), h.book.ids.sublist (hkept.map _)⟩
  have hnew : (H.draftInput rec raw).ps.newOrders = rec.publicOrders.map Order.wire := by
    show (rec.publicOrders.map fun o ↦ (o.wire, o.binding)).map Prod.fst = _
    rw [List.map_map]
    rfl
  refine ⟨hbook.named, ?_, ?_⟩
  · intro a ha
    obtain ⟨o, ho, rfl⟩ := List.mem_map.mp ha
    refine ⟨rfl, ?_⟩
    show (⟨o.account, o.wire.id.toNat, o.seq⟩ : Name) ∈ w.taken
    rw [hwire o ho]
    exact htaken o ho
  · rw [hnew, List.map_append, List.map_map]
    refine List.nodup_append.mpr ⟨hbook.ids, ?_, ?_⟩
    · refine List.pairwise_map.mpr (d.increasing.imp_of_mem fun {a b} ha hb hrising hid ↦ ?_)
      have hsame : a.name = b.name := h.eq_of_oid (htaken a ha) (htaken b hb) (by
        show a.oid = b.oid
        rw [← hwire a ha, ← hwire b hb]
        exact congrArg UInt32.toNat hid)
      have hlt := hrising (congrArg Name.account hsame)
      rw [show a.seq = b.seq from congrArg Name.seq hsame] at hlt
      exact UInt64.lt_irrefl _ hlt
    · -- an order that rests is at a seq the floor has reached, a new one is above it
      intro _ hstanding _ hfresh hid
      obtain ⟨e, he, rfl⟩ := List.mem_map.mp hstanding
      obtain ⟨o, ho, rfl⟩ := List.mem_map.mp hfresh
      obtain ⟨n, hn, haccount, hoid, hreached⟩ := hbook.named e he
      have hsame : n = o.name := h.eq_of_oid hn (htaken o ho) (by
        rw [hoid, show e.id = o.wire.id from hid]
        exact hwire o ho)
      obtain ⟨floor, hread, habove⟩ := d.above o ho
      rw [Host.answered_seeing hread] at habove
      rw [← haccount, hsame, UInt64.le_iff_toNat_le] at hreached
      have hfloor := toNat_u64At_zero_le (w.chain.getD (.sq o.account))
      exact absurd (hreached.trans hfloor) (Nat.not_le.mpr habove)

/-- Every payload a build submits is of such a draft. -/
theorem World.Sound.landable_payload (h : w.Sound H)
    (hsidecar : H.encMode = true → RunsSidecar H S ∧ Decrypts H.prims S)
    (hpayload : payload ∈ w.payloads H) (hsize : payload.length ≤ maxInput)
    (hinput : roundInput H.prims payload = some inp) : Landable w.taken w.chain inp.ps := by
  unfold World.payloads at hpayload
  split at hpayload
  · next draft hprepared =>
    cases List.mem_singleton.mp hpayload
    obtain ⟨pool, raw, d, hpool, hloose⟩ := (prepareRound_prepared (H.seeing w.chain) w.clock
      w.builder (h.builder.seeing w.chain)).1 _ hprepared
    have hmade : WellMade (H.seeing w.chain) S draft.1 :=
      d.wellMade (fun o ho ↦ (hpool o ho).sig) (fun o ho ↦ (hpool o ho).hidden) fun hmode ↦
        ⟨⟨(hsidecar hmode).1.encrypt, (hsidecar hmode).1.round⟩, (hsidecar hmode).2⟩
    obtain ⟨sec, hsec, -⟩ := d.bytes
    have hfit := (publicSectionBytes_spec hmade.sigs hsec).fit
    rw [d.input_eq hmade (fun hmode ↦ d.sealed_lt hmade hmode hsize) hinput]
    refine h.landable d (fun o ho ↦ hloose.admitted _ ?_) fun o ho ↦ (hfit o ho).1
    exact List.mem_append_right _ (List.mem_map_of_mem ho)
  · cases hpayload

end Build

/-! ### Settlement -/

section Settle

variable {H : Host} {taken : List Name} {st : Storage} {item : WorkItem}

/-- A round that may land leaves a book of orders that took their ids at the door. -/
theorem Landable.standing {st' mid : Storage} {floors : List (UInt32 × UInt64)}
    (h : Landable taken st inp.ps) (hdelivery : RoundDelivery H.prims st item inp floors mid st')
    (honward : Onward taken taken st st') :
    Standing taken st' (decodeOrders (clearRound H.prims inp.ps inp.sealedOrders).book) := by
  have hlabels := map_book_sublist (P := H.prims) (f := Order.label) (fun _ _ ↦ rfl) inp.ps
    inp.sealedOrders
  have hstands : ∀ e ∈ inp.ps.book ++ inp.ps.newOrders, Stands taken st' e := by
    intro e he
    rcases List.mem_append.mp he with he | he
    · exact (h.book e he).onward honward
    · obtain ⟨a, ha, rfl⟩ := List.mem_map.mp he
      obtain ⟨haccount, htaken⟩ := h.admitted a ha
      have hraised := (hdelivery.floor_raised (List.mem_map_of_mem ha)).2
      rw [haccount] at hraised
      exact ⟨_, htaken, rfl, rfl, hraised⟩
  constructor
  · intro e he
    obtain ⟨e', he', hlabel⟩ := List.mem_map.mp (hlabels.subset (List.mem_map_of_mem he))
    obtain ⟨n, hn, haccount, hoid, hseq⟩ := hstands e' he'
    rw [show e'.account = e.account from congrArg Label.account hlabel] at haccount hseq
    rw [show e'.id = e.id from congrArg Label.id hlabel] at hoid
    exact ⟨n, hn, haccount, hoid, hseq⟩
  · have hids := hlabels.map Label.id
    rw [List.map_map, List.map_map] at hids
    exact h.ids.sublist hids

/-- An item leaves such a book standing, unless it is a round of another's making. -/
theorem standing_deliver {market : UInt32}
    (h : Standing taken st (decodeOrders (st.getD (.book market))))
    (hround : ∀ inp, roundInput H.prims item.payload.val = some inp → Landable taken st inp.ps) :
    Standing taken (deliver H.prims st item).1
      (decodeOrders ((deliver H.prims st item).1.getD (.book market))) := by
  have honward := Onward.deliver H.prims taken st item
  rcases book_of_deliver H.prims st item market with hsame | ⟨kept, hsub, hbook⟩ |
    ⟨inp, floors, mid, hdelivery, -, -, hbook⟩
  · rw [hsame]
    exact h.onward honward
  · rw [hbook, decodeOrders_encodeOrders]
    exact Standing.onward
      ⟨fun e he ↦ h.named e (hsub.subset he), h.ids.sublist (hsub.map _)⟩ honward
  · rw [hbook]
    exact (hround inp hdelivery.input).standing hdelivery honward

end Settle

/-! ### Runs -/

section Runs

variable {H : Host} {S : ScalarOps H.prims.curve} {w : World}

/-- An order takes an id, and the builder places it. -/
theorem World.Sound.take (h : w.Sound H) {next : ℕ} {drafts : List Request}
    (hpair : q.pair = n.pair) (hseq : q.sealed = false → q.seq = n.seq)
    (hcounter : HandedOut next ((n :: w.taken).map Name.oid ++ drafts.map Request.oid)) :
    World.Sound H { w.act H (.place q) with
      nextOid := next, sealDrafts := drafts, taken := n :: w.taken } where
  counter := hcounter
  builder := by
    refine World.builder_act h.builder (List.subset_cons_self _ _) (.place q) ?_
    rintro _ ⟨⟩
    refine ⟨List.mem_map.mpr ⟨n, List.mem_cons_self, hpair.symm⟩, fun hopen ↦ ?_⟩
    rw [hpair, hseq hopen]
    exact List.mem_cons_self
  book := h.book.onward (Onward.take n w.taken w.chain)
  rounds payload hpayload hsize inp hinput :=
    (h.rounds payload hpayload hsize inp hinput).onward (Onward.take n w.taken w.chain)

/-- The builder does anything but place an order. -/
theorem World.Sound.act (h : w.Sound H) (a : Action) (hplace : ∀ q, a ≠ .place q) :
    (w.act H a).Sound H :=
  { h with
    builder := World.builder_act h.builder (List.Subset.refl _) a fun q hq ↦ absurd hq (hplace q) }

theorem World.Sound.settle (h : w.Sound H) (item : WorkItem) :
    (w.next H (.settle item)).Sound H := by
  have honward := Onward.deliver H.prims w.taken w.chain item
  by_cases hmay : w.maySettle item = true
  · have hnext : w.next H (.settle item) = { w with chain := (deliver H.prims w.chain item).1 } :=
      if_pos hmay
    rw [hnext]
    refine ⟨h.counter, h.builder, standing_deliver h.book fun inp hinput ↦ ?_,
      fun payload hpayload hsize inp hinput ↦
        (h.rounds payload hpayload hsize inp hinput).onward honward⟩
    rcases (Bool.or_eq_true _ _).mp hmay with hsubmitted | hother
    · exact h.rounds _ (List.contains_iff_mem.mp hsubmitted) item.payload.property inp hinput
    · -- what refine reads as a round has the tag of one
      have htag := (roundInput_spec hinput).tagged
      rw [htag] at hother
      cases hkind : inp.kind <;> rw [hkind] at hother <;> cases hother
  · have hnext : w.next H (.settle item) = w := if_neg hmay
    rw [hnext]
    exact h

theorem World.Sound.placePublic (h : w.Sound H) (request : Request) :
    (w.next H (.placePublic request)).Sound H := by
  set q : Request := { request with oid := w.nextOid, sealed := false } with hq
  by_cases hdoor : (H.refuses w.clock || q.unsigned) = true
  · have hnext : w.next H (.placePublic request) = w.act H (.place q) := if_pos hdoor
    have hstate : (w.act H (.place q)).builder = w.builder := step_of_refused hdoor
    rw [hnext]
    exact { h with builder := hstate ▸ h.builder }
  · have hnext : w.next H (.placePublic request) = { w.act H (.place q) with
        nextOid := w.nextOid + 1, taken := ⟨q.account, q.oid, q.seq⟩ :: w.taken } := if_neg hdoor
    rw [hnext]
    exact h.take rfl (fun _ ↦ rfl) (h.counter.fresh (List.Perm.refl _))

theorem World.Sound.placeSealed (h : w.Sound H) (request : Request) :
    (w.next H (.placeSealed request)).Sound H := by
  simp only [World.next]
  split
  · exact h
  · next draft hfind =>
    have hdraft := List.mem_of_find?_eq_some hfind
    have hoid : draft.oid = request.oid := by simpa using List.find?_some hfind
    have hmoved := h.counter.move (List.mem_map.mpr ⟨draft, hdraft, hoid⟩)
    have hfiltered : (w.sealDrafts.map Request.oid).filter (· ≠ request.oid) =
        (w.sealDrafts.filter fun d ↦ d.oid ≠ request.oid).map Request.oid := List.filter_map
    rw [hfiltered] at hmoved
    split_ifs
    · exact h.take rfl (fun hopen ↦ by cases hopen) hmoved
    · exact { h with counter := hmoved.tail }

theorem World.Sound.next (h : w.Sound H)
    (hsidecar : H.encMode = true → RunsSidecar H S ∧ Decrypts H.prims S) {m : MarketMove}
    (hm : m ≠ .restart) : (w.next H m).Sound H := by
  cases m with
  | placePublic request => exact h.placePublic request
  | prepareSealed request => exact { h with counter := h.counter.fresh List.perm_middle }
  | placeSealed request => exact h.placeSealed request
  | takeElsewhere => exact { h with counter := h.counter.skip }
  | cancel p => exact h.act (.cancel p) (fun _ ↦ by simp)
  | sweep => exact h.act .sweep (fun _ ↦ by simp)
  | build =>
    have hacted := h.act .build (fun _ ↦ by simp)
    refine { hacted with rounds := fun payload hpayload hsize inp hinput ↦ ?_ }
    rcases List.mem_append.mp hpayload with hpayload | hpayload
    · exact h.landable_payload hsidecar hpayload hsize hinput
    · exact h.rounds payload hpayload hsize inp hinput
  | settle item => exact h.settle item
  | restart => exact absurd rfl hm

theorem sound_start (H : Host) : World.Sound H { chain := Store.empty } := by
  have hbuilder : State.Sound H (demands []) [] {} := by
    constructor <;> simp [State.identities, State.stock, State.records]
  have hempty : decodeOrders (Storage.getD Store.empty (.book H.market)) = [] :=
    decodeOrders_encodeOrders []
  refine ⟨⟨List.nodup_nil, by simp⟩, hbuilder, ?_, by simp⟩
  rw [hempty]
  exact ⟨by simp, List.nodup_nil⟩

theorem sound_market (hsidecar : H.encMode = true → RunsSidecar H S ∧ Decrypts H.prims S)
    {moves : List MarketMove} (hmoves : ∀ m ∈ moves, m ≠ .restart) :
    (World.run H moves).Sound H := by
  induction moves using List.reverseRecOn with
  | nil => exact sound_start H
  | append_singleton moves m ih =>
    obtain ⟨hbefore, hlast⟩ := List.forall_mem_append.mp hmoves
    rw [World.run, List.foldl_append]
    exact (ih hbefore).next hsidecar (hlast m (List.mem_singleton.mpr rfl))

theorem World.Sound.distinctIds (h : w.Sound H) : w.DistinctIds H := by
  refine ⟨fun p hp ↦ ?_, ?_, ?_⟩
  · obtain ⟨o, ho, rfl⟩ := List.mem_map.mp hp
    rw [List.append_assoc] at ho
    rcases List.mem_append.mp ho with ho | ho
    · obtain ⟨e, he, rfl⟩ := List.mem_map.mp ho
      obtain ⟨n, hn, haccount, hoid, -⟩ := h.book.named e he
      exact List.mem_map.mpr ⟨n, hn, Prod.ext haccount hoid⟩
    · exact (h.builder.admitted o.identity (List.mem_append_left _ (List.mem_map_of_mem ho))).1
  · exact (List.nodup_append.mp h.counter.nodup).1.sublist (List.filter_sublist.map _)
  · have hoids : (parseBook (w.chain.getD (.book H.market))).map Order.oid =
        ((decodeOrders (w.chain.getD (.book H.market))).map Engine.Order.id).map UInt32.toNat := by
      rw [parseBook, List.map_map, List.map_map]
      rfl
    rw [hoids]
    exact h.book.ids.map fun _ _ ↦ UInt32.toNat_inj.mp

/-- While the builder process is not restarted, live orders have distinct ids: every order that
rests, is queued or is in a round is under an id it took at the door, and no two of them took the
same. -/
theorem live_ids_distinct (H : Host) (S : ScalarOps H.prims.curve)
    (hsidecar : H.encMode = true → RunsSidecar H S ∧ Decrypts H.prims S) (moves : List MarketMove)
    (hmoves : ∀ m ∈ moves, m ≠ .restart) : (World.run H moves).DistinctIds H :=
  (sound_market hsidecar hmoves).distinctIds

end Runs

/-! ### A restart -/

/-- A builder for market 0 of `openingItems`. -/
def venueHost : Host :=
  { sampleHost (fun _ ↦ 0) fun _ ↦ false with market := 0, base := 1, quote := 2 }

/-- A public sell by the account whose key is the repeated byte. -/
def venueSell (account : UInt32) (key : UInt8) : Request :=
  { account, oid := 0, side := .sell, price := 5, qty := 3, seq := 1, sig := List.replicate 64 0
    pubkey := FixedBytes.ofBytes 32 (List.replicate 32 key), signedPrice := 5 }

/-- The market opens, and account 1's sell is put in a round. -/
def soldMoves : List MarketMove :=
  openingItems.map .settle ++ [.placePublic (venueSell 1 1), .build]

/-- The round of `soldMoves` settles. -/
def soldItem : WorkItem :=
  ⟨6, ⟨(World.run venueHost soldMoves).submitted.headD [], by decide +kernel⟩⟩

/-- The sell rests, and the builder still has its round in flight when the next order comes. -/
theorem live_ids_distinct_venue :
    (World.run venueHost (soldMoves ++ [.settle soldItem, .placePublic (venueSell 2 2)])).live
        venueHost = [(1, 1000), (2, 1001), (1, 1000)] ∧
      (World.run venueHost (soldMoves ++
        [.settle soldItem, .placePublic (venueSell 2 2)])).DistinctIds
        venueHost := by
  refine ⟨by decide +kernel,
    live_ids_distinct venueHost toyScalars (fun hmode ↦ by cases hmode) _ ?_⟩
  rintro m hm rfl
  simp [soldMoves] at hm

/-- The sell rests under id 1000, the builder is restarted,
and account 2's sell gets id 1000 too. -/
theorem restarted_ids_collide :
    (World.run venueHost (soldMoves ++
      [.settle soldItem, .restart, .placePublic (venueSell 2 2)])).live
        venueHost = [(1, 1000), (2, 1000)] ∧
      ¬ (World.run venueHost (soldMoves ++
        [.settle soldItem, .restart, .placePublic (venueSell 2 2)])).DistinctIds venueHost := by
  unfold World.DistinctIds
  decide +kernel

end Jamswap.Builder
