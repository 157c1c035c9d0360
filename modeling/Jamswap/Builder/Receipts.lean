import Jamswap.Builder.Resolver
import Jamswap.Builder.Protocol

/-!
# What finalizing a round hands out

`finalizeRound` never raises. It gives every order the round still owns exactly one fate: an end, a
rest on the book, or a remainder under a new key that is queued or waits to be posted; and it ends
the resting orders the round filled or pruned (`finalizeRound_spec`).
-/

namespace Jamswap.Builder

open Library Engine Service Prog

section Reads

variable (H : Host)

theorem readOnly_landedSlot (rid : Bytes32) : ReadOnly (landedSlot H rid) :=
  (ReadOnly.ask _).bind fun _ ↦ ReadOnly.pure _

theorem readOnly_landedFinal (rid : Bytes32) : ReadOnly (landedFinal H rid) :=
  (ReadOnly.ask _).bind fun _ ↦ ReadOnly.pure _

theorem readOnly_mstate (key : Key) : ReadOnly (mstate H key) :=
  (ReadOnly.ask _).bind fun _ ↦ ReadOnly.pure _

theorem readOnly_time : ReadOnly (time H) := ReadOnly.ask _

end Reads

section Seals

variable (H : Host)

/-- Making hiding material records one new commitment, and changes nothing when it fails. -/
theorem sealMaterial_spec (o : Order) (s₀ : State) :
    Sat (fun s ↦ s = s₀) (sealMaterial H o)
      (fun o' s ↦ ∃ h, s = { s₀ with seals := h :: s₀.seals } ∧ o'.commit = some h ∧
        o'.pair = o.pair) (fun s ↦ s = s₀) := by
  unfold sealMaterial
  refine Sat.bind (ReadOnly.ofOption _).sat fun terms ↦ ?_
  refine Sat.bind (ReadOnly.ask _).sat fun token ↦ ?_
  refine Sat.bind (Q := fun _ s ↦ s = s₀) ?_ fun hidden ↦ ?_
  · exact Sat.ite (fun _ ↦ (ReadOnly.ask _).sat) fun _ ↦ (ReadOnly.pure _).sat
  · refine Sat.bind (Q := fun _ s ↦
      s = { s₀ with seals := commitment H.prims hidden :: s₀.seals }) ?_ fun _ ↦ ?_
    · exact Sat.update fun s hs ↦ by rw [hs]
    · refine Sat.pure fun s hs ↦ ⟨_, hs, ?_, ?_⟩ <;> split <;> rfl

/-- A remainder before and after its seal is asked for, with the commitment that was made. -/
def Resealed (r r' : Order) (new : List Bytes32) : Prop :=
  r'.pair = r.pair ∧
    ((r' = r ∧ new = []) ∨ (r.commit = none ∧ ∃ h, new = [h] ∧ r'.commit = some h))

/-- Posting a re-seal changes nothing but the list of commitments, and never raises. -/
theorem postCarrySeal_spec (r : Order) (s₀ : State) :
    Sat (fun s ↦ s = s₀) (postCarrySeal H r)
      (fun out s ↦ ∃ new, s = { s₀ with seals := new ++ s₀.seals } ∧ Resealed r out.1 new ∧
        (out.2 = true → out.1.commit ≠ none)) (fun _ ↦ False) := by
  unfold postCarrySeal
  refine Sat.bind (Q := fun made s ↦ ∃ new, s = { s₀ with seals := new ++ s₀.seals } ∧
    (made = none → new = []) ∧
    ∀ r', made = some r' → Resealed r r' new ∧ r'.commit ≠ none) ?_ fun made ↦ ?_
  · cases hcommit : r.commit with
    | some h =>
      refine Sat.pure fun s hs ↦ ⟨[], hs, fun hnone ↦ (by cases hnone), fun r' hr' ↦ ?_⟩
      cases hr'
      exact ⟨⟨rfl, Or.inl ⟨rfl, rfl⟩⟩, by simp [hcommit]⟩
    | none =>
      refine Sat.attempt ((sealMaterial_spec H r s₀).conseq (fun _ hs ↦ hs) ?_ ?_)
      · rintro o s ⟨h, rfl, ho, hpair⟩
        refine ⟨[h], rfl, fun hnone ↦ (by cases hnone), fun r' hr' ↦ ?_⟩
        cases hr'
        exact ⟨⟨hpair, Or.inr ⟨hcommit, h, rfl, ho⟩⟩, by simp [ho]⟩
      · rintro s rfl
        exact ⟨[], rfl, fun _ ↦ rfl, fun r' hr' ↦ (by cases hr')⟩
  · cases made with
    | none =>
      refine Sat.pure ?_
      rintro s ⟨new, rfl, hnew, -⟩
      exact ⟨new, rfl, ⟨rfl, Or.inl ⟨rfl, hnew rfl⟩⟩, fun hsent ↦ (by cases hsent)⟩
    | some r' =>
      refine Sat.bind (Q := fun _ s ↦ ∃ new, s = { s₀ with seals := new ++ s₀.seals } ∧
        Resealed r r' new ∧ r'.commit ≠ none) ?_ fun sent ↦ ?_
      · refine Sat.answer ?_
        rintro - s ⟨new, rfl, -, hmade⟩
        exact ⟨new, rfl, hmade r' rfl⟩
      · refine Sat.pure ?_
        rintro s ⟨new, rfl, hre, hsealed⟩
        exact ⟨new, rfl, hre, fun _ ↦ hsealed⟩

end Seals

/-! ### Carried remainders -/

/-- What the carry loop did with its orders: the remainders re-sealed and those left for a retry,
each order's disposition, and the commitments made. -/
structure Carried (orders carried queued : List Order) (dispositions : List (Order × Disposition))
    (new : List Bytes32) : Prop where
  orders : dispositions.map Prod.fst = orders
  sealed : ∀ r ∈ carried, r.commit ≠ none
  pairs : ((carried ++ queued).map Order.pair).Perm
    ((dispositions.filter fun e ↦ e.2.terminal = none).map fun e ↦ e.1.pair)
  seals : ((carried ++ queued).filterMap Order.commit).Subperm new

section Carry

variable {orders carried queued : List Order} {dispositions : List (Order × Disposition)}
  {new : List Bytes32} {o : Order}

/-- An order that ends carries nothing. -/
theorem Carried.ended (h : Carried orders carried queued dispositions new) {d : Disposition}
    (hd : d.terminal ≠ none) :
    Carried (o :: orders) carried queued ((o, d) :: dispositions) new where
  orders := by rw [List.map_cons, h.orders]
  sealed := h.sealed
  pairs := by
    rw [List.filter_cons_of_neg (by simpa using hd)]
    exact h.pairs
  seals := h.seals

/-- A remainder joins the re-sealed ones or the ones to retry. -/
theorem Carried.carry (h : Carried orders carried queued dispositions new) {d : Disposition}
    (hd : d.terminal = none) {r : Order} (hpair : r.pair = o.pair) {made : List Bytes32}
    (hmade : r.commit.toList.Subperm made) {sent : Bool} (hsent : sent = true → r.commit ≠ none) :
    Carried (o :: orders) (if sent then r :: carried else carried)
      (if sent then queued else r :: queued) ((o, d) :: dispositions) (new ++ made) := by
  have hperm : ((if sent then r :: carried else carried) ++
      (if sent then queued else r :: queued)).Perm (r :: (carried ++ queued)) := by
    cases sent
    · exact List.perm_middle
    · exact List.Perm.refl _
  refine ⟨by rw [List.map_cons, h.orders], fun r' hr' ↦ ?_, ?_, ?_⟩
  · cases sent
    · exact h.sealed r' hr'
    · rcases List.mem_cons.mp hr' with rfl | hr'
      · exact hsent rfl
      · exact h.sealed r' hr'
  · rw [List.filter_cons_of_pos (by simpa using hd), List.map_cons]
    refine (hperm.map _).trans ?_
    rw [List.map_cons, hpair]
    exact h.pairs.cons _
  · refine (hperm.filterMap _).subperm.trans ?_
    have hhead : (r :: (carried ++ queued)).filterMap Order.commit =
        r.commit.toList ++ (carried ++ queued).filterMap Order.commit := by
      rw [List.filterMap_cons]
      cases r.commit <;> rfl
    rw [hhead]
    exact (hmade.append h.seals).trans List.perm_append_comm.subperm

end Carry

section Programs

variable (H : Host) (now : Time) (clearing : Clearing)

/-- The carry loop changes the retry queue and the commitments, and never raises. -/
theorem carryEach_spec (orders : List Order) (s₀ : State) :
    Sat (fun s ↦ s = s₀) (carryEach H now clearing orders)
      (fun out s ↦ ∃ queued new serials, s = { s₀ with
          carryRetry := s₀.carryRetry ++ queued, seals := new ++ s₀.seals, serials } ∧
        Carried orders out.1 queued out.2 new) (fun _ ↦ False) := by
  induction orders generalizing s₀ with
  | nil =>
    refine Sat.pure fun s hs ↦ ⟨[], [], s₀.serials, by simp [hs], rfl, ?_, ?_, ?_⟩ <;> simp
  | cons o orders ih =>
    unfold carryEach
    refine Sat.current fun t ↦ ?_
    refine Sat.ofEach ?_
    rintro s₁ ⟨hs₁, -⟩
    rw [hs₁]
    -- an order that ends here: the rest of the loop, then its disposition in front
    have hends : ∀ d : Disposition, d.terminal ≠ none →
        Sat (fun s ↦ s = s₀)
          (carryEach H now clearing orders >>= fun out ↦ pure (out.1, (o, d) :: out.2))
        (fun out s ↦ ∃ queued new serials, s = { s₀ with
            carryRetry := s₀.carryRetry ++ queued, seals := new ++ s₀.seals, serials } ∧
          Carried (o :: orders) out.1 queued out.2 new) (fun _ ↦ False) := by
      intro d hd
      refine Sat.bind (ih s₀) fun out ↦ Sat.pure ?_
      rintro s ⟨queued, new, serials, rfl, hcarried⟩
      exact ⟨queued, new, serials, rfl, hcarried.ended hd⟩
    refine Sat.ite (fun _ ↦ hends _ (by decide)) fun _ ↦ Sat.ite (fun _ ↦ ?_) fun _ ↦ ?_
    · exact hends _ (by split <;> decide)
    · refine Sat.bind (Q := fun _ s ↦ s = { s₀ with serials := s₀.serials + 1 })
        (Sat.update fun s hs ↦ by rw [hs]) fun _ ↦ ?_
      refine Sat.bind (postCarrySeal_spec H _ _) fun out ↦ ?_
      obtain ⟨r, sent⟩ := out
      refine Sat.bind (Q := fun _ s ↦ ∃ made, s = { s₀ with
          carryRetry := s₀.carryRetry ++ (if sent then [] else [r])
          seals := made ++ s₀.seals, serials := s₀.serials + 1 } ∧
        r.pair = o.pair ∧ r.commit.toList.Subperm made ∧ (sent = true → r.commit ≠ none)) ?_
        fun _ ↦ ?_
      · refine Sat.update ?_
        rintro s ⟨made, rfl, ⟨hpair, hre⟩, hsent⟩
        refine ⟨made, ?_, hpair, ?_, hsent⟩
        · cases sent <;> simp
        · rcases hre with ⟨rfl, rfl⟩ | ⟨-, h, rfl, hcommit⟩
          · exact List.nil_subperm
          · rw [show r.commit = some h from hcommit]
            exact List.Subperm.refl _
      · refine Sat.ofEach ?_
        rintro s ⟨made, rfl, hpair, hmade, hsent⟩
        refine Sat.bind (ih _) fun out ↦ Sat.pure ?_
        rintro s ⟨queued, new, serials, rfl, hcarried⟩
        have hboth := hcarried.carry (o := o) (d := if 0 < clearing.filled o.oid then
          .partialCarried else .carried) (by split <;> rfl) hpair hmade hsent
        refine ⟨if sent then queued else r :: queued, new ++ made, serials, ?_, hboth⟩
        cases sent <;> simp [List.append_assoc]

end Programs

/-! ### Receipts -/

/-- The state with these events told, latest first. -/
def State.tell (s : State) (events : List Event) : State := { s with events := events ++ s.events }

section Events

theorem State.tell_tell (s : State) (first second : List Event) :
    (s.tell first).tell second = s.tell (second ++ first) := by
  simp only [State.tell, List.append_assoc]

theorem when_tell (c : Bool) (events : List Event) :
    (when c (update fun s ↦ s.tell events) : B Unit) =
      update fun s ↦ s.tell (if c = true then events else []) := by
  cases c <;> rfl

/-- Telling the events of each element in turn. -/
theorem forEach_tell {α : Type} {f : α → B Unit} {events : α → List Event}
    (hf : ∀ x, f x = update fun s ↦ s.tell (events x)) (xs : List α) :
    forEach f xs = update fun s ↦ s.tell (xs.reverse.flatMap events) := by
  rw [show f = fun x ↦ update fun s ↦ s.tell (events x) from funext hf, forEach_update]
  congr 1
  funext s
  induction xs generalizing s with
  | nil => rfl
  | cons x xs ih =>
    rw [List.foldl_cons, ih, State.tell_tell, List.reverse_cons, List.flatMap_append]
    simp

def execEvents (p : Pair) (d : Disposition) : List Event :=
  d.terminal.toList.map fun outcome ↦ .terminal p outcome

theorem recordExec_eq (p : Pair) (d : Disposition) :
    recordExec p d = update fun s ↦ s.tell (execEvents p d) := by
  unfold recordExec execEvents
  cases d.terminal <;> rfl

/-- What a public order's trader is told. -/
def publicEvents (o : Order) (filled : ℕ) (revealed : Bool) : List Event :=
  if revealed then execEvents o.pair (if o.qty ≤ filled then .filled
    else if 0 < filled then .partialCancelled else .cancelled)
  else if filled < o.qty then [.rested o.pair] else [.terminal o.pair .filled]

theorem recordPublic_eq (o : Order) (filled : ℕ) (revealed : Bool) :
    recordPublic o filled revealed = update fun s ↦ s.tell (publicEvents o filled revealed) := by
  unfold recordPublic publicEvents
  split
  · exact recordExec_eq _ _
  · split
    · rw [recordExec_eq, when_tell]
      split <;> rfl
    · exact recordExec_eq _ _

/-- What a resting maker's trader is told. -/
def makerEvents (clearing : Clearing) (o : Order) : List Event :=
  (if 0 < clearing.filled o.oid then
    execEvents o.pair
      (if o.qty ≤ clearing.filled o.oid then .filled else .partialResting) else []) ++
  if clearing.filled o.oid < o.qty ∧ (0 < clearing.filled o.oid ∨ reached clearing o = true) then
    [.rested o.pair] else []

theorem recordMaker_eq (clearing : Clearing) (o : Order) :
    recordMaker clearing o = update fun s ↦ s.tell (makerEvents clearing o) := by
  unfold recordMaker makerEvents
  simp only [recordExec_eq, when_tell]
  have hrest : (update fun s : State ↦ s.log (.rested o.pair)) =
      update fun s ↦ s.tell [.rested o.pair] := rfl
  rw [hrest, when_tell, update_update]
  simp only [State.tell_tell, decide_eq_true_eq, Bool.and_eq_true, Bool.or_eq_true]

/-- What a round's receipts tell, latest first. -/
def receiptEvents (resting : List Order) (entries : List (Order × Disposition))
    (publicOrders : List Order) (clearing : Clearing) : List Event :=
  resting.reverse.flatMap (makerEvents clearing) ++
    (publicOrders.reverse.flatMap (fun o ↦ publicEvents o (clearing.filled o.oid)
      (entries.any fun entry ↦ entry.1.oid = o.oid)) ++
    entries.reverse.flatMap fun entry ↦ execEvents entry.1.pair entry.2)

theorem recordExecutions_spec (H : Host) (resting : List Order)
    (entries : List (Order × Disposition)) (publicOrders : List Order) (clearing : Clearing)
    (rid : Bytes32) (s₀ : State) :
    Sat (fun s ↦ s = s₀) (recordExecutions H resting entries publicOrders clearing rid)
      (fun _ s ↦ s = s₀.tell (receiptEvents resting entries publicOrders clearing))
      (fun _ ↦ False) := by
  unfold recordExecutions
  refine Sat.ite (fun hempty ↦ ?_) fun _ ↦ ?_
  · obtain ⟨rfl, rfl, rfl⟩ := hempty
    exact Sat.pure fun s hs ↦ hs
  · refine Sat.bind (Q := fun _ s ↦ s = s₀) (Sat.attempt (readOnly_landedFinal H rid).sat)
      fun _ ↦ ?_
    rw [forEach_tell (fun entry : Order × Disposition ↦ recordExec_eq entry.1.pair entry.2),
      forEach_tell (fun o ↦ recordPublic_eq o _ _), forEach_tell (recordMaker_eq clearing)]
    refine Sat.bind (Q := fun _ s ↦ s = s₀.tell _) (Sat.update fun s hs ↦ by rw [hs]) fun _ ↦ ?_
    refine Sat.bind (Q := fun _ s ↦ s = (s₀.tell _).tell _) (Sat.update fun s hs ↦ by rw [hs])
      fun _ ↦ Sat.update fun s hs ↦ ?_
    rw [hs, State.tell_tell, State.tell_tell, List.append_assoc]
    rfl

/-! ### The settlement -/

theorem flatMap_singleton_filter {α β : Type} (p : α → Prop) [DecidablePred p] (f : α → β)
    (xs : List α) : (xs.flatMap fun x ↦ if p x then [f x] else []) = (xs.filter p).map f := by
  induction xs with
  | nil => rfl
  | cons x xs ih =>
    rw [List.flatMap_cons, ih]
    by_cases hx : p x <;> simp [hx]

/-- Picking from what the elements tell, in any order. -/
theorem filterMap_reverse_flatMap {α β : Type} {events : α → List Event} (pick : Event → Option β)
    (p : α → Prop) [DecidablePred p] (f : α → β)
    (h : ∀ x, (events x).filterMap pick = if p x then [f x] else []) (xs : List α) :
    ((xs.reverse.flatMap events).filterMap pick).Perm ((xs.filter p).map f) := by
  rw [← flatMap_singleton_filter, List.filterMap_flatMap]
  simp only [h]
  exact xs.reverse_perm.flatMap_right _

/-- A public order is over after its round when its id was revealed or it is filled. -/
def publicOver (entries : List (Order × Disposition)) (clearing : Clearing) (o : Order) : Bool :=
  (entries.any fun entry ↦ entry.1.oid = o.oid) || decide (o.qty ≤ clearing.filled o.oid)

section Picks

variable (entries : List (Order × Disposition)) (clearing : Clearing)

theorem terminal_execEvents (p : Pair) (d : Disposition) :
    (execEvents p d).filterMap Event.terminal? = if d.terminal ≠ none then [p] else [] := by
  unfold execEvents
  cases d.terminal <;> rfl

theorem terminal_publicEvents (o : Order) :
    (publicEvents o (clearing.filled o.oid) (entries.any fun entry ↦ entry.1.oid = o.oid)).filterMap
      Event.terminal? = if publicOver entries clearing o = true then [o.pair] else [] := by
  unfold publicEvents publicOver
  generalize (entries.any fun entry ↦ entry.1.oid = o.oid) = revealed
  cases revealed with
  | true =>
    have hend : ∀ d : Disposition, d.terminal ≠ none →
        (execEvents o.pair d).filterMap Event.terminal? = [o.pair] := fun d hd ↦ by
      rw [terminal_execEvents, if_pos hd]
    apply hend
    split
    · decide
    · split <;> decide
  | false =>
    by_cases hfilled : clearing.filled o.oid < o.qty
    · have hopen : ¬ o.qty ≤ clearing.filled o.oid := Nat.not_le.mpr hfilled
      simp only [Bool.false_or, decide_eq_true_eq, if_pos hfilled, if_neg hopen]
      rfl
    · have hfull : o.qty ≤ clearing.filled o.oid := Nat.not_lt.mp hfilled
      simp only [Bool.false_or, decide_eq_true_eq, if_neg hfilled, if_pos hfull]
      rfl

theorem rested_publicEvents {o : Order} (h : publicOver entries clearing o = false) :
    o.pair ∈ (publicEvents o (clearing.filled o.oid)
      (entries.any fun entry ↦ entry.1.oid = o.oid)).filterMap Event.rested? := by
  unfold publicOver at h
  obtain ⟨hrevealed, hfilled⟩ := Bool.or_eq_false_iff.mp h
  unfold publicEvents
  rw [hrevealed, if_neg Bool.false_ne_true, if_pos (Nat.not_le.mp (of_decide_eq_false hfilled))]
  exact List.mem_singleton.mpr rfl

theorem terminal_makerEvents (o : Order) : (makerEvents clearing o).filterMap Event.terminal? =
    if 0 < clearing.filled o.oid ∧ o.qty ≤ clearing.filled o.oid then [o.pair] else [] := by
  have hrest : (if clearing.filled o.oid < o.qty ∧ (0 < clearing.filled o.oid ∨
      reached clearing o = true) then [Event.rested o.pair] else []).filterMap Event.terminal? =
      [] := by split <;> rfl
  unfold makerEvents
  rw [List.filterMap_append, hrest, List.append_nil]
  by_cases hpos : 0 < clearing.filled o.oid
  · rw [if_pos hpos, terminal_execEvents]
    by_cases hfull : o.qty ≤ clearing.filled o.oid <;> simp [hpos, hfull, Disposition.terminal]
  · simp [hpos]

end Picks

end Events

/-- A finalized round's effect: the settlement it hands out and the commitments it made. -/
structure Receipted (fr : Round) (s s' : State) (b : Settlement) (new : List Bytes32) : Prop where
  view : s'.view = { s.view with
    queue := s.view.queue ++ b.queued
    retry := s.view.retry ++ b.retried
    ended := b.ended ++ s.view.ended
    receipts := (fr.holding fr.sighted).unclaimed ++ s.view.receipts }
  rested : s'.rested = b.rested ++ s.rested
  placed : s'.placed = s.placed
  spent : s'.endedKeys = s.endedKeys
  refs : s'.refs = s.refs
  trace : s'.trace = s.trace
  seals : s'.seals = new ++ s.seals
  accounts : b.Accounts (fr.holding fr.sighted).unclaimed fr.endsOnBook
  sealed : ∀ k ∈ b.queued, k.commit ≠ none
  minted : ((b.queued ++ b.retried).filterMap OKey.commit).Subperm new

theorem unclaimed_holding (fr : Round) (sighted : Bool) : (fr.holding sighted).unclaimed =
    (fr.unclaimed fr.sealedOrders).map Order.key ++
      (fr.unclaimed fr.publicOrders).map Order.key := by
  simp only [Holding.unclaimed, Round.holding, Round.keys, Round.orders, Round.unclaimed,
    List.map_append, List.filter_append, List.filter_map]
  rfl

/-- The fates of a round's orders add up to the orders it owned. -/
theorem accounts_of_receipts (fr : Round) {carried queued : List Order}
    {entries : List (Order × Disposition)} {new : List Bytes32}
    (h : Carried (fr.unclaimed fr.sealedOrders) carried queued entries new)
    (b : Settlement)
    (hended : b.ended = fr.pruned.reverse ++ (receiptEvents fr.resting entries
      (fr.unclaimed fr.publicOrders) fr.clearing).filterMap Event.terminal?)
    (hrested : b.rested = (receiptEvents fr.resting entries
      (fr.unclaimed fr.publicOrders) fr.clearing).filterMap Event.rested?)
    (hqueued : b.queued = carried.map Order.key) (hretried : b.retried = queued.map Order.key) :
    b.Accounts (fr.holding fr.sighted).unclaimed fr.endsOnBook := by
  set publicOrders := fr.unclaimed fr.publicOrders with hpublic
  set finished := publicOver entries fr.clearing with hfinished
  have hpair : ∀ xs : List Order,
      (xs.map Order.key).map OKey.pair = xs.map Order.pair := fun xs ↦ by
    rw [List.map_map]
    rfl
  refine ⟨(entries.filter fun e ↦ e.2.terminal ≠ none).map (fun e ↦ e.1.key) ++
      (publicOrders.filter finished).map Order.key,
    (publicOrders.filter fun o ↦ !finished o).map Order.key,
    (entries.filter fun e ↦ e.2.terminal = none).map (fun e ↦ e.1.key), ?_, ?_, ?_, ?_⟩
  · rw [unclaimed_holding, ← hpublic, ← h.orders, List.map_map]
    have hsealed : ((entries.filter fun e ↦ e.2.terminal ≠ none) ++
        entries.filter fun e ↦ e.2.terminal = none).Perm entries := by
      simpa using List.filter_append_perm
        (fun e : Order × Disposition ↦ e.2.terminal ≠ none) entries
    have hopen := List.filter_append_perm finished publicOrders
    refine List.Perm.trans ?_ ((hsealed.map fun e ↦ e.1.key).append (hopen.map Order.key))
    rw [List.map_append, List.map_append, List.append_assoc, List.append_assoc, List.append_assoc]
    refine List.Perm.append_left _ ?_
    rw [← List.append_assoc]
    exact List.perm_append_comm
  · have hmakers := filterMap_reverse_flatMap Event.terminal? _ _
      (terminal_makerEvents fr.clearing) fr.resting
    have hopen := filterMap_reverse_flatMap Event.terminal? _ _
      (terminal_publicEvents entries fr.clearing) publicOrders
    have hsealed := filterMap_reverse_flatMap Event.terminal? _ _
      (fun e : Order × Disposition ↦ terminal_execEvents e.1.pair e.2) entries
    rw [hended, receiptEvents, List.filterMap_append, List.filterMap_append, List.map_append, hpair,
      List.map_map]
    refine (fr.pruned.reverse_perm.append (hmakers.append (hopen.append hsealed))).trans ?_
    have hkey : (OKey.pair ∘ fun e : Order × Disposition ↦ e.1.key) = fun e ↦ e.1.pair := rfl
    rw [hkey]
    unfold Round.endsOnBook
    simp only [Bool.decide_eq_true, ← hfinished]
    refine Multiset.coe_eq_coe.mp ?_
    simp only [← Multiset.coe_add]
    ac_rfl
  · intro k hk
    obtain ⟨o, ho, rfl⟩ := List.mem_map.mp hk
    obtain ⟨ho, hnot⟩ := List.mem_filter.mp ho
    rw [hrested]
    have htold := rested_publicEvents entries fr.clearing (o := o) (by simpa using hnot)
    obtain ⟨e, he, hpick⟩ := List.mem_filterMap.mp htold
    refine List.mem_filterMap.mpr ⟨e, ?_, hpick⟩
    refine List.mem_append_right _ (List.mem_append_left _ ?_)
    exact List.mem_flatMap.mpr ⟨o, List.mem_reverse.mpr ho, he⟩
  · rw [hqueued, hretried, ← List.map_append, hpair, List.map_map]
    exact h.pairs

/-- A receipt is never a placement. -/
theorem placed_receiptEvents (resting : List Order) (entries : List (Order × Disposition))
    (publicOrders : List Order) (clearing : Clearing) :
    (receiptEvents resting entries publicOrders clearing).filterMap Event.placed? = [] := by
  have hexec : ∀ p d, ∀ e ∈ execEvents p d, e.placed? = none := by
    intro p d e he
    obtain ⟨outcome, -, rfl⟩ := List.mem_map.mp he
    rfl
  refine List.filterMap_eq_nil_iff.mpr fun e he ↦ ?_
  simp only [receiptEvents, List.mem_append, List.mem_flatMap] at he
  rcases he with ⟨o, -, he⟩ | ⟨o, -, he⟩ | ⟨entry, -, he⟩
  · simp only [makerEvents, List.mem_append] at he
    rcases he with he | he
    · split at he
      · exact hexec _ _ e he
      · cases he
    · split at he
      · cases List.mem_singleton.mp he
        rfl
      · cases he
  · unfold publicEvents at he
    split at he
    · exact hexec _ _ e he
    · split at he <;> cases List.mem_singleton.mp he <;> rfl
  · exact hexec _ _ e he

/-- Ending orders one after the other is telling their traders. -/
theorem foldl_ended {α : Type} (pair : α → Pair) (outcome : Outcome) (xs : List α) (s : State) :
    ∃ expiry, xs.foldl (fun s x ↦ (s.popExpiry (pair x)).log (.terminal (pair x) outcome)) s =
      { s with
        orderExpiry := expiry
        events := (xs.reverse.map fun x ↦ .terminal (pair x) outcome) ++ s.events } := by
  induction xs generalizing s with
  | nil => exact ⟨s.orderExpiry, rfl⟩
  | cons x xs ih =>
    obtain ⟨expiry, heq⟩ := ih ((s.popExpiry (pair x)).log (.terminal (pair x) outcome))
    refine ⟨expiry, ?_⟩
    rw [List.foldl_cons, heq]
    simp [State.log, State.popExpiry]

theorem growEncCap_eq (s : State) (H : Host) (fr : Round) :
    ∃ encCap, s.growEncCap H fr = { s with encCap } := by
  unfold State.growEncCap
  split
  · exact ⟨s.encCap, rfl⟩
  · split
    · exact ⟨_, rfl⟩
    · exact ⟨s.encCap, rfl⟩

/-- Finalizing a round never raises, and hands out one settlement. -/
theorem finalizeRound_spec (H : Host) (fr : Round) (s₀ : State) :
    Sat (fun s ↦ s = s₀) (finalizeRound H fr)
      (fun _ s ↦ ∃ b new, Receipted fr s₀ s b new) (fun _ ↦ False) := by
  obtain ⟨encCap, hcap⟩ := growEncCap_eq s₀ H fr
  unfold finalizeRound carrySealedRemainders
  refine Sat.bind (Q := fun _ s ↦ s = s₀)
    (Sat.answer fun _ _ hs ↦ hs) fun now ↦ ?_
  refine Sat.bind (Q := fun _ s ↦ s = { s₀ with encCap })
    (Sat.update fun s hs ↦ by rw [hs, hcap]) fun _ ↦ ?_
  -- the sealed remainders
  refine Sat.bind (Q := fun entries s ↦ ∃ carried queued new serials,
    s = { s₀ with
      encCap, pending := s₀.pending ++ carried, carryRetry := s₀.carryRetry ++ queued
      seals := new ++ s₀.seals, serials } ∧
    Carried (fr.unclaimed fr.sealedOrders) carried queued entries new) ?_ fun entries ↦ ?_
  · refine Sat.bind (carryEach_spec H now fr.clearing _ _) fun out ↦ ?_
    refine Sat.bind (Q := fun _ s ↦ ∃ queued new serials,
      s = { s₀ with
        encCap, pending := s₀.pending ++ out.1, carryRetry := s₀.carryRetry ++ queued
        seals := new ++ s₀.seals, serials } ∧
      Carried (fr.unclaimed fr.sealedOrders) out.1 queued out.2 new) ?_ fun _ ↦ ?_
    · refine Sat.update ?_
      rintro s ⟨queued, new, serials, rfl, hcarried⟩
      exact ⟨queued, new, serials, rfl, hcarried⟩
    · refine Sat.pure ?_
      rintro s ⟨queued, new, serials, hs, hcarried⟩
      exact ⟨out.1, queued, new, serials, hs, hcarried⟩
  -- the receipts, and what the round pruned
  refine Sat.ofEach ?_
  rintro s ⟨carried, queued, new, serials, rfl, hcarried⟩
  refine Sat.bind (recordExecutions_spec H _ _ _ _ _ _) fun _ ↦ ?_
  rw [forEach_update, update_update]
  refine Sat.update ?_
  rintro s rfl
  obtain ⟨expiry, heq⟩ := foldl_ended (fun p ↦ p) .expired fr.pruned _
  rw [heq]
  set told := receiptEvents fr.resting entries (fr.unclaimed fr.publicOrders) fr.clearing
  set b : Settlement := {
    ended := fr.pruned.reverse ++ told.filterMap Event.terminal?
    rested := told.filterMap Event.rested?
    queued := carried.map Order.key
    retried := queued.map Order.key } with hb
  have hterminal : (fr.pruned.reverse.map fun p ↦ Event.terminal p .expired).filterMap
      Event.terminal? = fr.pruned.reverse := by
    rw [List.filterMap_map]
    exact List.filterMap_some
  have hnone : ∀ {β : Type} (pick : Event → Option β), (∀ p, pick (.terminal p .expired) = none) →
      (fr.pruned.reverse.map fun p ↦ Event.terminal p .expired).filterMap pick = [] := by
    intro β pick hpick
    rw [List.filterMap_map]
    exact List.filterMap_eq_nil_iff.mpr fun p _ ↦ hpick p
  refine ⟨b, new, ?_, ?_, ?_, rfl, rfl, rfl, rfl, ?_, ?_, ?_⟩
  · simp only [State.view, State.ended, State.tell, List.filterMap_append, hterminal,
      List.map_append, List.append_assoc, hb, unclaimed_holding, Round.unclaimed, Round.orders,
      List.filter_append]
  · simp only [State.rested, State.tell, List.filterMap_append, hnone Event.rested? fun _ ↦ rfl, hb,
      List.nil_append]
  · have hplaced : told.filterMap Event.placed? = [] := placed_receiptEvents _ _ _ _
    simp only [State.placed, State.tell, List.filterMap_append, hplaced,
      hnone Event.placed? fun _ ↦ rfl, List.nil_append]
  · exact accounts_of_receipts fr hcarried b rfl rfl rfl rfl
  · intro k hk
    obtain ⟨r, hr, rfl⟩ := List.mem_map.mp hk
    exact hcarried.sealed r hr
  · have hcommits : ((b.queued ++ b.retried).filterMap OKey.commit) =
        (carried ++ queued).filterMap Order.commit := by
      rw [hb, ← List.map_append, List.filterMap_map]
      rfl
    rw [hcommits]
    exact hcarried.seals

end Jamswap.Builder
