import Jamswap.Library.Runs
import Jamswap.Telemetry.Verdict

/-!
# Live gauges and verdict

The live counts and the verdict on the log of the same run agree as long as every call is `Plain`,
and stop agreeing at the first one that is not. Each call touches one order, so all three counts
move on both sides by what that order is before and after; `Agrees` says what the record of an order
and its events have in common.
-/

namespace Jamswap.Telemetry

open Library

/-! ### Rounding keeps order -/

theorem roundHalfEven_mem (x : ℚ) : ⌊x⌋ ≤ roundHalfEven x ∧ roundHalfEven x ≤ ⌊x⌋ + 1 := by
  unfold roundHalfEven
  dsimp only
  split_ifs <;> omega

theorem roundHalfEven_mono {x y : ℚ} (h : x ≤ y) : roundHalfEven x ≤ roundHalfEven y := by
  rcases (Int.floor_le_floor h).lt_or_eq with hlt | heq
  · calc roundHalfEven x ≤ ⌊x⌋ + 1 := (roundHalfEven_mem x).2
      _ ≤ ⌊y⌋ := hlt
      _ ≤ roundHalfEven y := (roundHalfEven_mem y).1
  · unfold roundHalfEven
    dsimp only
    rw [← heq]
    split_ifs <;> first | omega | linarith

theorem round_mono {x y : ℚ} (h : x ≤ y) (digits : ℕ) : round x digits ≤ round y digits := by
  have hpos : (0 : ℚ) < 10 ^ digits := by positivity
  have hscaled := roundHalfEven_mono (mul_le_mul_of_nonneg_right h hpos.le)
  exact div_le_div_of_nonneg_right (Int.cast_le.2 hscaled) hpos.le

/-! ### What a call can do -/

/-- The order has a terminal event. -/
def ended (events : List Event) : Bool := (events.findSome? Event.terminal?).isSome

/-- The events of one order in the log. -/
def eventsOf (t : OrderTelemetry) (key : OrderKey) : List Event :=
  Dict.history Event.key t.log key

/-- The calls both reports read alike, by the state they come in. An order is placed before it
ends; one that fills is still marketable, or has ended already; one that is cancelled is not
marketable; a rest of an order that has an expiry gives one. -/
def Plain (t : OrderTelemetry) (c : Call) : Prop :=
  match c.op with
  | .placed _ _ _ _ _ => ended (eventsOf t c.key) = false
  | .rested _ _ _ expiresAt => ∀ r ∈ t.orders.get? c.key, r.expiresAt ≠ none →
      truthy ((truthy expiresAt).map (round · 3)) ≠ none
  | .terminal .filled _ _ =>
    (∃ r ∈ t.orders.get? c.key, r.marketable = true) ∨ ended (eventsOf t c.key) = true
  | .terminal .cancelled _ _ => ∀ r ∈ t.orders.get? c.key, r.marketable = false
  | _ => True

instance Plain.decidable (t : OrderTelemetry) (c : Call) : Decidable (Plain t c) := by
  unfold Plain
  split <;> infer_instance

/-- A record moved on by an event that neither rests nor ends the order. -/
structure Moved (r₀ r : Record) (change : Change) : Prop where
  phase : r.phase ≠ .rested
  marketable : r.marketable = r₀.marketable
  expiresAt : r.expiresAt = r₀.expiresAt
  unset : change.expiresAt = none
  rested? : ∀ key clock, (event key r clock change).rested? = none
  terminal? : ∀ key clock, (event key r clock change).terminal? = none

/-- The telemetry after a call, by what the call did. -/
inductive Called (t : OrderTelemetry) (c : Call) : OrderTelemetry → Prop
  | placed (side price qty : ℤ) (sealed marketable : Bool)
      (op : c.op = .placed side price qty sealed marketable) :
      Called t c (t.file c.key c.clock ⟨marketable, c.clock.begun, .placed, 0, none, none⟩
        (.placed side price qty sealed))
  | unseen (get? : t.orders.get? c.key = none) (plain : Plain t c) : Called t c t
  | moved (r₀ r : Record) (change : Change) (get? : t.orders.get? c.key = some r₀)
      (moved : Moved r₀ r change) (plain : Plain t c) :
      Called t c (t.file c.key c.clock r change)
  | rested (r : Record) (clearing : ℤ) (crossed : Bool) (filled : ℤ) (expiresAt : Option Time)
      (op : c.op = .rested clearing crossed filled expiresAt)
      (get? : t.orders.get? c.key = some r) :
      Called t c (t.file c.key c.clock { r with phase := .rested, marketable := false }
        (.rested clearing crossed filled ((truthy expiresAt).map (round · 3))))
  | terminal (outcome : Outcome) (filled : ℤ) (reason : Option String)
      (op : c.op = .terminal outcome filled reason) :
      Called t c (t.terminal c.key c.clock outcome filled reason)

variable {t : OrderTelemetry} {c : Call} {es : List Event} {e : Event} {cls : OrderClass}
  {calls : List Call}

theorem Called.touch {update : Record → Record} {change : Record → Change} (plain : Plain t c)
    (moved : ∀ r, Moved r (update r) (change (update r))) :
    Called t c (t.touch c.key c.clock update change) := by
  unfold OrderTelemetry.touch
  cases hget : t.orders.get? c.key with
  | none => exact .unseen hget plain
  | some r => exact .moved r _ _ hget (moved r) plain

theorem called (t : OrderTelemetry) (c : Call) : Called t c (t.call c) := by
  obtain ⟨key, clock, op⟩ := c
  cases op with
  | placed side price qty sealed marketable => exact .placed side price qty sealed marketable rfl
  | rounded | reverted | requeued | deferred =>
    unfold OrderTelemetry.call
    dsimp only [OrderTelemetry.rounded, OrderTelemetry.reverted, OrderTelemetry.requeued,
      OrderTelemetry.deferred]
    exact .touch trivial fun r ↦ ⟨by simp, rfl, rfl, rfl, fun _ _ ↦ rfl, fun _ _ ↦ rfl⟩
  | rested clearing crossed filled expiresAt =>
    change Called t _ (t.rested key clock clearing crossed filled expiresAt)
    unfold OrderTelemetry.rested OrderTelemetry.touch
    cases hget : t.orders.get? key with
    | none =>
      refine .unseen hget fun r hr ↦ ?_
      rw [hget] at hr
      cases hr
    | some r => exact .rested r clearing crossed filled expiresAt rfl hget
  | terminal outcome filled reason => exact .terminal outcome filled reason rfl

/-! ### One order -/

theorem judge_cls (es : List Event) :
    (judge es).cls = classify (judge es).marketable
      ((es.findSome? Event.terminal?).map Prod.fst) (es.getLast?.any (·.rested?.isSome)) :=
  rfl

theorem findSome?_concat (es : List Event) (e : Event) :
    (es ++ [e]).findSome? Event.terminal? = (es.findSome? Event.terminal?).or e.terminal? := by
  rw [List.findSome?_append]
  cases h : e.terminal? <;> simp [h]

theorem ended_concat (es : List Event) (e : Event) :
    ended (es ++ [e]) = (ended es || e.terminal?.isSome) := by
  rw [ended, ended, findSome?_concat, Option.isSome_or]

theorem marketable_concat (hrest : e.rested? = none)
    (hm : e.marketable = true → (judge es).marketable = true) :
    (judge (es ++ [e])).marketable = (judge es).marketable := by
  simp only [judge, List.filterMap_append, List.any_append] at hm ⊢
  rw [List.filterMap_cons_none hrest, List.filterMap_nil, List.append_nil, List.any_cons,
    List.any_nil, Bool.or_false]
  cases he : e.marketable with
  | false => rw [Bool.or_false]
  | true =>
    rw [hm he, ((Bool.and_eq_true _ _).mp (hm he)).1]
    simp

theorem marketable_rested (hrest : e.rested?.isSome) : (judge (es ++ [e])).marketable = false := by
  obtain ⟨rest, hrest⟩ := Option.isSome_iff_exists.1 hrest
  simp only [judge, List.filterMap_append]
  rw [List.filterMap_cons_some hrest]
  simp

theorem expiresAt_concat (hrest : e.rested? = none) :
    (judge (es ++ [e])).expiresAt = (judge es).expiresAt := by
  simp only [judge, List.filterMap_append]
  rw [List.filterMap_cons_none hrest, List.filterMap_nil, List.append_nil]

theorem expiresAt_rested {rest : Bool × Option Time} (hrest : e.rested? = some rest) :
    (judge (es ++ [e])).expiresAt = rest.2 := by
  simp only [judge, List.filterMap_append]
  rw [List.filterMap_cons_some hrest]
  simp

theorem lastSeen_concat (h : ∀ e' ∈ es, e'.ts ≤ e.ts) : lastSeen (es ++ [e]) = some e.ts := by
  rw [lastSeen, List.max?_eq_some_iff]
  constructor
  · simp
  · intro ts hts
    obtain ⟨e', he', rfl⟩ := List.mem_map.1 hts
    rcases List.mem_append.1 he' with hold | hnew
    · exact h e' hold
    · rw [List.mem_singleton.1 hnew]

/-- The class of an order that has not ended. -/
theorem cls_of_not_ended (h : ended es = false) :
    (judge es).cls = if es.getLast?.any (·.rested?.isSome) then .resting else .open := by
  have hterm : es.findSome? Event.terminal? = none := by simpa [ended] using h
  rw [judge_cls, hterm]
  rfl

/-- What the record of an open order and its events have in common. -/
structure Follows (r : Record) (es : List Event) : Prop where
  live : ended es = false
  marketable : (judge es).marketable = r.marketable
  phase : (r.phase = .rested) ↔ es.getLast?.any (·.rested?.isSome) = true
  last : r.last ≠ none ∧ r.last = lastSeen es
  expiresAt : r.expiresAt = truthy (judge es).expiresAt

/-- What both sides know of an order: the record of one that is open follows its events, and one
without a record has no event or has ended. -/
def Agrees : Option Record → List Event → Prop
  | none, es => es = [] ∨ ended es = true
  | some r, es => Follows r es

def isStale (now : Time) (r : Record) : Bool := openGrace < r.late now

def isStuck (now : Time) (es : List Event) : Bool := (stuckFor openGrace now es).isSome

theorem isStuck_of_ended (h : ended es = true) (now : Time) : isStuck now es = false := by
  obtain ⟨term, hterm⟩ := Option.isSome_iff_exists.1 h
  unfold isStuck stuckFor
  dsimp only
  rw [judge_cls, hterm]
  simp only [Option.map_some, classify]
  split_ifs <;> rfl

theorem isStuck_open (h : ended es = false) (hlast : es.getLast?.any (·.rested?.isSome) = false)
    (now : Time) : isStuck now es = (lastSeen es).any (openGrace < now - ·) := by
  unfold isStuck stuckFor
  dsimp only
  rw [cls_of_not_ended h, hlast, if_neg Bool.false_ne_true]
  cases lastSeen es <;> simp [Option.isSome_filter]

theorem isStuck_resting (h : ended es = false) (hlast : es.getLast?.any (·.rested?.isSome) = true)
    (now : Time) : isStuck now es = (truthy (judge es).expiresAt).any (openGrace < now - ·) := by
  unfold isStuck stuckFor
  dsimp only
  rw [cls_of_not_ended h, hlast, if_pos rfl]
  cases truthy (judge es).expiresAt <;> simp [Option.isSome_filter]

/-- A stale record is one of an order stuck open. -/
theorem Follows.isStale_eq {r : Record} (h : Follows r es) (now : Time) :
    isStale now r = isStuck now es := by
  by_cases hphase : r.phase = .rested
  · rw [isStuck_resting h.live (h.phase.1 hphase), ← h.expiresAt, isStale, Record.late,
      if_pos hphase]
    cases r.expiresAt with
    | none => exact decide_eq_false (by norm_num [openGrace])
    | some expiry => rfl
  · have hlast : es.getLast?.any (·.rested?.isSome) = false := by
      simpa using mt h.phase.2 hphase
    rw [isStuck_open h.live hlast, ← h.last.2, isStale, Record.late, if_neg hphase]
    obtain ⟨ts, hts⟩ := Option.ne_none_iff_exists'.1 h.last.1
    rw [hts]
    rfl

theorem Agrees.hits_eq {o : Option Record} (h : Agrees o es) (now : Time) :
    Dict.hits (isStale now) o = Dict.hits (isStuck now) (some es) := by
  cases o with
  | none =>
    have hstuck : isStuck now es = false := by
      rcases h with rfl | hended
      · exact isStuck_open rfl rfl now
      · exact isStuck_of_ended hended now
    rw [Dict.hits_some, hstuck]
    rfl
  | some r => rw [Dict.hits_some, Dict.hits_some, Follows.isStale_eq h]

/-! ### The record after an event -/

section Noted

variable {r₀ r : Record} {es : List Event} {key : OrderKey} {clock : Clock} {change : Change}

theorem follows_placed (marketable : Bool) (side price qty : ℤ) (sealed : Bool) :
    Follows (Record.noted ⟨marketable, clock.begun, .placed, 0, none, none⟩ clock
        (.placed side price qty sealed))
      [event key ⟨marketable, clock.begun, .placed, 0, none, none⟩ clock
        (.placed side price qty sealed)] where
  live := rfl
  marketable := by simp [judge, event, Event.rested?, Record.noted]
  phase := by simp [Record.noted, event, Event.rested?]
  last := ⟨by simp [Record.noted], rfl⟩
  expiresAt := rfl

theorem Follows.moved (h : Follows r₀ es) (hmoved : Moved r₀ r change)
    (hts : ∀ e ∈ es, e.ts ≤ round clock.logged 3) :
    Follows (r.noted clock change) (es ++ [event key r clock change]) where
  live := by rw [ended_concat, h.live, hmoved.terminal?]; rfl
  marketable := by
    rw [marketable_concat (hmoved.rested? key clock), h.marketable]
    · exact hmoved.marketable.symm
    · intro hm
      rw [h.marketable, ← hmoved.marketable]
      exact hm
  phase := by
    rw [List.getLast?_concat, Option.any_some, hmoved.rested?]
    simpa [Record.noted] using hmoved.phase
  last := ⟨by simp [Record.noted], by rw [lastSeen_concat hts]; rfl⟩
  expiresAt := by
    rw [expiresAt_concat (hmoved.rested? key clock), ← h.expiresAt, ← hmoved.expiresAt,
      Record.noted, hmoved.unset]
    rfl

theorem Follows.rested (h : Follows r es) {clearing : ℤ} {crossed : Bool} {filled : ℤ}
    {expiresAt : Option Time} (hexp : r.expiresAt ≠ none → truthy expiresAt ≠ none)
    (hts : ∀ e ∈ es, e.ts ≤ round clock.logged 3) :
    Follows (Record.noted { r with phase := .rested, marketable := false } clock
        (.rested clearing crossed filled expiresAt))
      (es ++ [event key { r with phase := .rested, marketable := false } clock
        (.rested clearing crossed filled expiresAt)]) where
  live := by rw [ended_concat, h.live]; rfl
  marketable := marketable_rested rfl
  phase := by simp [Record.noted, event, Event.rested?]
  last := ⟨by simp [Record.noted], by rw [lastSeen_concat hts]; rfl⟩
  expiresAt := by
    rw [expiresAt_rested rfl]
    change (truthy expiresAt).or r.expiresAt = truthy expiresAt
    cases htruthy : truthy expiresAt with
    | some expiry => rfl
    | none => exact not_not.1 (mt hexp (not_not.2 htruthy))

end Noted

/-! ### The counts after an event -/

/-- One if the events are those of an order of the class. -/
def inClass (cls : OrderClass) (es : List Event) : ℕ := if (judge es).cls = cls then 1 else 0

theorem tally_concat (hcls : cls ≠ .open) (log : List Event) (e : Event) :
    tally (load (log ++ [e])) cls + inClass cls (Dict.history Event.key log e.key) =
      tally (load log) cls + inClass cls (Dict.history Event.key log e.key ++ [e]) := by
  have hnil : decide ((judge []).cls = cls) = false := decide_eq_false hcls.symm
  simpa [tally, load, inClass] using
    Dict.countP_group_concat Event.key (fun es ↦ decide ((judge es).cls = cls)) hnil log e

theorem inClass_of_not_ended (h : ended es = false) (hresting : cls ≠ .resting)
    (hopen : cls ≠ .open) : inClass cls es = 0 := by
  rw [inClass, cls_of_not_ended h]
  split_ifs with h₁ h₂ h₂
  · exact absurd h₂ hresting.symm
  · rfl
  · exact absurd h₂ hopen.symm
  · rfl

theorem stuck_concat (now : Time) (log : List Event) (e : Event) :
    (load (log ++ [e])).countP (isStuck now) +
        Dict.hits (isStuck now) (some (Dict.history Event.key log e.key)) =
      (load log).countP (isStuck now) +
        Dict.hits (isStuck now) (some (Dict.history Event.key log e.key ++ [e])) :=
  Dict.countP_group_concat Event.key (isStuck now) (isStuck_open rfl rfl now) log e

theorem length_stuckOpen (now : Time) (orders : Dict OrderKey (List Event)) :
    (stuckOpen openGrace now orders).length = orders.countP (isStuck now) := by
  rw [stuckOpen, List.length_filterMap_eq_countP, Dict.countP, Dict.values, List.countP_map]
  congr 1
  funext o
  rw [Option.isSome_map]
  rfl

/-- Both sides agree on every order and on the counts. -/
structure Agreement (t : OrderTelemetry) : Prop where
  each : ∀ key, Agrees (t.orders.get? key) (eventsOf t key)
  cleared : t.cleared = tally (load t.log) .cleared
  missed : t.missed = tally (load t.log) .missed
  stale : ∀ now, t.orders.countP (isStale now) = (load t.log).countP (isStuck now)

theorem agreement_init : Agreement .init where
  each _ := .inl rfl
  cleared := rfl
  missed := rfl
  stale _ := rfl

section Step

variable {t : OrderTelemetry} {key : OrderKey} {clock : Clock} {r : Record} {change : Change}

/-- The stale counts agree after an event exactly if they agree on its order. -/
theorem Agreement.stale_file_iff (h : Agreement t) (now : Time) :
    (t.file key clock r change).orders.countP (isStale now) =
        (load (t.file key clock r change).log).countP (isStuck now) ↔
      isStale now (r.noted clock change) =
        isStuck now (eventsOf t key ++ [event key r clock change]) := by
  have hlive := Dict.countP_set (isStale now) t.orders key (r.noted clock change)
  have hlog : (load (t.log ++ [event key r clock change])).countP (isStuck now) +
        Dict.hits (isStuck now) (some (eventsOf t key)) =
      (load t.log).countP (isStuck now) +
        Dict.hits (isStuck now) (some (eventsOf t key ++ [event key r clock change])) :=
    stuck_concat now t.log _
  have hbefore := (h.each key).hits_eq now
  have hcount := h.stale now
  rw [← Dict.hits_some_inj]
  change (t.orders.set key (r.noted clock change)).countP (isStale now) =
    (load (t.log ++ [event key r clock change])).countP (isStuck now) ↔ _
  constructor <;> intro heq <;> omega

/-- An event that leaves its order open counts it neither as cleared nor as missed. -/
theorem tally_file (hlive : ended (eventsOf t key) = false)
    (hafter : ended (eventsOf t key ++ [event key r clock change]) = false)
    (hresting : cls ≠ .resting) (hopen : cls ≠ .open) :
    tally (load (t.file key clock r change).log) cls = tally (load t.log) cls := by
  have hlog : tally (load (t.file key clock r change).log) cls + inClass cls (eventsOf t key) =
      tally (load t.log) cls + inClass cls (eventsOf t key ++ [event key r clock change]) :=
    tally_concat hopen t.log _
  rw [inClass_of_not_ended hlive hresting hopen, inClass_of_not_ended hafter hresting hopen] at hlog
  exact hlog

theorem eventsOf_concat_self (e : Event) :
    Dict.history Event.key (t.log ++ [e]) e.key = eventsOf t e.key ++ [e] :=
  Dict.history_concat_self Event.key t.log e

theorem Agreement.file (h : Agreement t) (hlive : ended (eventsOf t key) = false)
    (hfollows : Follows (r.noted clock change) (eventsOf t key ++ [event key r clock change])) :
    Agreement (t.file key clock r change) where
  each k := by
    by_cases hk : k = key
    · subst hk
      change Agrees ((t.orders.set k _).get? k) (Dict.history Event.key (t.log ++ [_]) k)
      rw [Dict.get?_set_self]
      exact eventsOf_concat_self (event k r clock change) ▸ hfollows
    · change Agrees ((t.orders.set key _).get? k) (Dict.history Event.key (t.log ++ [_]) k)
      rw [Dict.get?_set_of_ne _ _ hk, Dict.history_concat_of_ne Event.key t.log hk]
      exact h.each k
  cleared := by
    rw [tally_file hlive hfollows.live (by simp) (by simp)]
    exact h.cleared
  missed := by
    rw [tally_file hlive hfollows.live (by simp) (by simp)]
    exact h.missed
  stale now := (h.stale_file_iff now).2 (hfollows.isStale_eq now)

/-! #### The end of an order -/

/-- The record an order ends with. -/
def endRecord (t : OrderTelemetry) (key : OrderKey) (clock : Clock) : Record :=
  (t.orders.get? key).getD ⟨false, clock.begun, .placed, 0, none, none⟩

variable {outcome : Outcome} {filled : ℤ} {reason : Option String}

/-- The event an order ends with. -/
def endEvent (t : OrderTelemetry) (key : OrderKey) (clock : Clock) (outcome : Outcome) (filled : ℤ)
    (reason : Option String) : Event :=
  let r := endRecord t key clock
  event key r clock (.terminal outcome filled r.retries (round (clock.judged - r.placedAt) 2)
    (reason.filter (· ≠ "")))

theorem endRecord_of_some (h : t.orders.get? key = some r) : endRecord t key clock = r := by
  rw [endRecord, h]
  rfl

theorem marketable_of_none (clock : Clock) (h : t.orders.get? key = none) :
    (endRecord t key clock).marketable = false := by
  rw [endRecord, h]
  rfl

/-- An order that has ended has no record. -/
theorem Agreement.get?_of_ended (h : Agreement t) (hended : ended (eventsOf t key) = true) :
    t.orders.get? key = none := by
  have hkey := h.each key
  cases hget : t.orders.get? key with
  | none => rfl
  | some r =>
    rw [hget] at hkey
    exact absurd (hkey.live.symm.trans hended) Bool.false_ne_true

/-- A second end changes nothing for the verdict. -/
theorem Agreement.cls_end_of_ended (h : Agreement t) (hended : ended (eventsOf t key) = true) :
    (judge (eventsOf t key ++ [endEvent t key clock outcome filled reason])).cls =
      (judge (eventsOf t key)).cls := by
  have hm := marketable_of_none clock (h.get?_of_ended hended)
  obtain ⟨term, hterm⟩ := Option.isSome_iff_exists.1 hended
  have hfirst : (eventsOf t key ++ [endEvent t key clock outcome filled reason]).findSome?
      Event.terminal? = some term := by
    rw [findSome?_concat, hterm]
    rfl
  have hsame : (judge (eventsOf t key ++ [endEvent t key clock outcome filled reason])).marketable =
      (judge (eventsOf t key)).marketable := by
    refine marketable_concat rfl fun htrue ↦ ?_
    exact absurd (hm.symm.trans htrue) Bool.false_ne_true
  rw [judge_cls, judge_cls, hfirst, hterm, hsame]
  rfl

/-- The first end of an order decides its class, by the record it ends with. -/
theorem Agreement.cls_end_of_live (h : Agreement t) (hlive : ended (eventsOf t key) = false) :
    (judge (eventsOf t key ++ [endEvent t key clock outcome filled reason])).cls =
      classify (endRecord t key clock).marketable (some outcome) false := by
  have hterm : (eventsOf t key).findSome? Event.terminal? = none := by simpa [ended] using hlive
  have hbefore : (judge (eventsOf t key)).marketable = (endRecord t key clock).marketable := by
    have hkey := h.each key
    cases hget : t.orders.get? key with
    | none =>
      rw [hget] at hkey
      rcases hkey with hnil | hended
      · rw [hnil, marketable_of_none clock hget]
        rfl
      · exact absurd (hlive.symm.trans hended) Bool.false_ne_true
    | some r =>
      rw [hget] at hkey
      rw [endRecord_of_some hget]
      exact hkey.marketable
  rw [judge_cls, findSome?_concat, hterm, marketable_concat rfl fun htrue ↦ hbefore.trans htrue,
    hbefore]
  rfl

theorem tally_terminal (t : OrderTelemetry) (key : OrderKey) (clock : Clock) (outcome : Outcome)
    (filled : ℤ) (reason : Option String) (hopen : cls ≠ .open) :
    tally (load (t.terminal key clock outcome filled reason).log) cls +
        inClass cls (eventsOf t key) =
      tally (load t.log) cls +
        inClass cls (eventsOf t key ++ [endEvent t key clock outcome filled reason]) :=
  tally_concat hopen t.log (endEvent t key clock outcome filled reason)

theorem inClass_cleared_end (m : Bool) :
    (if classify m (some outcome) false = .cleared then 1 else 0) =
      if outcome = .filled then 1 else 0 := by
  cases outcome <;> cases m <;> simp [classify, verdictMissed]

theorem inClass_missed_end (m : Bool) :
    (if classify m (some outcome) false = .missed then 1 else 0) =
      if m && verdictMissed outcome then 1 else 0 := by
  cases outcome <;> cases m <;> simp [classify, verdictMissed]

/-- The cleared counts agree after an end exactly if an order that fills is marketable, or had
ended. -/
theorem Agreement.cleared_terminal_iff (h : Agreement t) :
    (t.terminal key clock outcome filled reason).cleared =
        tally (load (t.terminal key clock outcome filled reason).log) .cleared ↔
      (outcome = .filled → (endRecord t key clock).marketable = true ∨
        ended (eventsOf t key) = true) := by
  have hopen : OrderClass.cleared ≠ .open := by simp
  have hlog := tally_terminal t key clock outcome filled reason hopen
  have hcount := h.cleared
  change (if (endRecord t key clock).marketable && OrderTelemetry.isCleared outcome
    then t.cleared + 1 else t.cleared) = _ ↔ _
  cases hended : ended (eventsOf t key) with
  | true =>
    rw [inClass, inClass, h.cls_end_of_ended hended] at hlog
    rw [marketable_of_none clock (h.get?_of_ended hended), Bool.false_and,
      if_neg Bool.false_ne_true]
    constructor
    · intro _ _
      exact .inr rfl
    · intro _
      omega
  | false =>
    rw [inClass_of_not_ended hended (by simp) (by simp), inClass, h.cls_end_of_live hended,
      inClass_cleared_end] at hlog
    cases hm : (endRecord t key clock).marketable <;> by_cases hfilled : outcome = .filled <;>
      simp [OrderTelemetry.isCleared, hfilled] at hlog ⊢ <;> omega

/-- The missed counts agree after an end exactly if an order that is cancelled is not
marketable. -/
theorem Agreement.missed_terminal_iff (h : Agreement t) :
    (t.terminal key clock outcome filled reason).missed =
        tally (load (t.terminal key clock outcome filled reason).log) .missed ↔
      (outcome = .cancelled → (endRecord t key clock).marketable = false) := by
  have hopen : OrderClass.missed ≠ .open := by simp
  have hlog := tally_terminal t key clock outcome filled reason hopen
  have hcount := h.missed
  change (if (endRecord t key clock).marketable && !OrderTelemetry.isCleared outcome &&
    OrderTelemetry.isMissed outcome then t.missed + 1 else t.missed) = _ ↔ _
  cases hended : ended (eventsOf t key) with
  | true =>
    have hm := marketable_of_none clock (h.get?_of_ended hended)
    rw [inClass, inClass, h.cls_end_of_ended hended] at hlog
    rw [hm, Bool.false_and, Bool.false_and, if_neg Bool.false_ne_true]
    constructor
    · intro _ _
      rfl
    · intro _
      omega
  | false =>
    rw [inClass_of_not_ended hended (by simp) (by simp), inClass, h.cls_end_of_live hended,
      inClass_missed_end] at hlog
    cases hm : (endRecord t key clock).marketable <;> cases outcome <;>
      simp [OrderTelemetry.isCleared, OrderTelemetry.isMissed, verdictMissed, hm] at hlog ⊢ <;>
      omega

theorem Agreement.stale_terminal (h : Agreement t) (now : Time) :
    (t.terminal key clock outcome filled reason).orders.countP (isStale now) =
      (load (t.terminal key clock outcome filled reason).log).countP (isStuck now) := by
  have hended : ended (eventsOf t key ++ [endEvent t key clock outcome filled reason]) = true := by
    rw [ended_concat]
    exact Bool.or_true _
  have hlive := Dict.countP_erase (isStale now) t.orders key
  have hlog : (load (t.terminal key clock outcome filled reason).log).countP (isStuck now) +
        Dict.hits (isStuck now) (some (eventsOf t key)) =
      (load t.log).countP (isStuck now) + Dict.hits (isStuck now)
        (some (eventsOf t key ++ [endEvent t key clock outcome filled reason])) :=
    stuck_concat now t.log _
  rw [Dict.hits_some (isStuck now) (eventsOf t key ++ _), isStuck_of_ended hended,
    if_neg Bool.false_ne_true] at hlog
  have hbefore := (h.each key).hits_eq now
  have hcount := h.stale now
  change (t.orders.erase key).countP (isStale now) = _
  omega

theorem Agreement.terminal (h : Agreement t)
    (hfilled : outcome = .filled → (endRecord t key clock).marketable = true ∨
      ended (eventsOf t key) = true)
    (hcancelled : outcome = .cancelled → (endRecord t key clock).marketable = false) :
    Agreement (t.terminal key clock outcome filled reason) where
  each k := by
    change Agrees ((t.orders.erase key).get? k) (Dict.history Event.key (t.log ++ [_]) k)
    by_cases hk : k = key
    · subst hk
      rw [Dict.get?_erase_self]
      have hended : ended (eventsOf t k ++ [endEvent t k clock outcome filled reason]) = true := by
        rw [ended_concat]
        exact Bool.or_true _
      exact .inr (eventsOf_concat_self (endEvent t k clock outcome filled reason) ▸ hended)
    · rw [Dict.get?_erase_of_ne _ hk, Dict.history_concat_of_ne Event.key t.log hk]
      exact h.each k
  cleared := h.cleared_terminal_iff.2 hfilled
  missed := h.missed_terminal_iff.2 hcancelled
  stale := h.stale_terminal

theorem exists_marketable_iff :
    (∃ r ∈ t.orders.get? key, r.marketable = true) ↔ (endRecord t key clock).marketable = true := by
  rw [endRecord]
  cases t.orders.get? key <;> simp

theorem forall_not_marketable_iff :
    (∀ r ∈ t.orders.get? key, r.marketable = false) ↔
      (endRecord t key clock).marketable = false := by
  rw [endRecord]
  cases t.orders.get? key <;> simp

theorem plain_terminal_iff (op : c.op = .terminal outcome filled reason) :
    Plain t c ↔
      (outcome = .filled → (endRecord t c.key c.clock).marketable = true ∨
        ended (eventsOf t c.key) = true) ∧
      (outcome = .cancelled → (endRecord t c.key c.clock).marketable = false) := by
  rw [Plain, op, ← exists_marketable_iff, ← forall_not_marketable_iff]
  cases outcome <;> simp

end Step

/-! ### A call, a run -/

/-- The three counts of the live report are those of the verdict on its log. -/
def CountsAgree (t : OrderTelemetry) (target now : ℚ) : Prop :=
  let live := t.snapshot now
  let report := score (load t.log) target openGrace now
  live.cleared = report.cleared ∧ live.missed = report.missedTerminal ∧
    live.stale = report.stuckOpenCount

theorem countsAgree_iff (t : OrderTelemetry) (target now : ℚ) :
    CountsAgree t target now ↔ t.cleared = tally (load t.log) .cleared ∧
      t.missed = tally (load t.log) .missed ∧
      t.orders.countP (isStale now) = (load t.log).countP (isStuck now) := by
  rw [← length_stuckOpen]
  rfl

/-- A plain call keeps the agreement. -/
theorem Agreement.call {t : OrderTelemetry} (h : Agreement t) {c : Call}
    (hts : ∀ e ∈ t.log, e.ts ≤ round c.clock.logged 3)
    (hfresh : ∀ side price qty sealed marketable,
      c.op = .placed side price qty sealed marketable → t.orders.get? c.key = none)
    (hplain : Plain t c) : Agreement (t.call c) := by
  have hkey := h.each c.key
  have htsKey : ∀ e ∈ eventsOf t c.key, e.ts ≤ round c.clock.logged 3 := fun e he ↦
    hts e (List.mem_of_mem_filter he)
  have hcalled := called t c
  generalize t.call c = t' at hcalled
  cases hcalled with
  | placed side price qty sealed marketable op =>
    rw [hfresh _ _ _ _ _ op] at hkey
    have hlive : ended (eventsOf t c.key) = false := by simpa [Plain, op] using hplain
    have hnil : eventsOf t c.key = [] := hkey.resolve_right fun hended ↦
      absurd (hlive.symm.trans hended) Bool.false_ne_true
    refine h.file hlive ?_
    rw [hnil]
    exact follows_placed marketable side price qty sealed
  | unseen _ _ => exact h
  | moved r₀ r change get? moved _ =>
    rw [get?] at hkey
    exact h.file hkey.live (hkey.moved moved htsKey)
  | rested r clearing crossed filled expiresAt op get? =>
    rw [get?] at hkey
    rw [Plain, op] at hplain
    exact h.file hkey.live (hkey.rested (hplain r get?) htsKey)
  | terminal outcome filled reason op =>
    obtain ⟨hfilled, hcancelled⟩ := (plain_terminal_iff op).1 hplain
    exact h.terminal hfilled hcancelled

/-- A time past the grace of a due time, and no earlier than another. -/
theorem exists_past_grace (due after : Time) : ∃ now, after ≤ now ∧ openGrace < now - due := by
  refine ⟨max after (due + openGrace + 1), le_max_left _ _, ?_⟩
  have := le_max_right after (due + openGrace + 1)
  linarith

/-- A call that is not plain ends it. -/
theorem Agreement.plain_of_call (h : Agreement t) (target : ℚ)
    (hagree : ∀ now, c.clock.logged ≤ now → CountsAgree (t.call c) target now) : Plain t c := by
  have hkey := h.each c.key
  simp only [countsAgree_iff] at hagree
  have hcalled := called t c
  generalize t.call c = t' at hcalled hagree
  cases hcalled with
  | placed side price qty sealed marketable op =>
    rw [Plain, op]
    by_contra hended
    -- once silent for long enough the order is stale, while the verdict takes it for ended
    obtain ⟨now, hnow, hlate⟩ := exists_past_grace (round c.clock.logged 3) c.clock.logged
    have hstale := (h.stale_file_iff now).1 (hagree now hnow).2.2
    rw [isStuck_of_ended (by rw [ended_concat, Bool.eq_true_of_not_eq_false hended]; rfl)] at hstale
    exact of_decide_eq_false hstale hlate
  | unseen _ plain => exact plain
  | moved r₀ r change get? moved plain => exact plain
  | rested r clearing crossed filled expiresAt op get? =>
    rw [get?] at hkey
    rw [Plain, op]
    intro r' hr' hexp hnone
    obtain rfl : r = r' := by simpa [get?] using hr'
    obtain ⟨expiry, hexpiry⟩ := Option.ne_none_iff_exists'.1 hexp
    -- long past the expiry on record the order is stale, while the verdict has none for it
    obtain ⟨now, hnow, hlate⟩ := exists_past_grace expiry c.clock.logged
    have hstale := (h.stale_file_iff now).1 (hagree now hnow).2.2
    rw [isStuck_resting (by rw [ended_concat, hkey.live]; rfl) (by rw [List.getLast?_concat]; rfl),
      expiresAt_rested rfl, hnone] at hstale
    refine of_decide_eq_false hstale ?_
    rw [Record.late, Record.noted, if_pos rfl, Change.expiresAt, hnone, hexpiry]
    exact hlate
  | terminal outcome filled reason op =>
    obtain ⟨hcleared, hmissed, -⟩ := hagree c.clock.logged le_rfl
    exact (plain_terminal_iff op).2
      ⟨h.cleared_terminal_iff.1 hcleared, h.missed_terminal_iff.1 hmissed⟩

/-- The clock never goes back, over a run of calls. -/
def Steady (calls : List Call) : Prop :=
  (calls.flatMap fun c ↦ [c.clock.begun, c.clock.judged, c.clock.logged]).Pairwise (· ≤ ·)

/-- The key a call places. -/
def Call.placedKey (c : Call) : Option OrderKey :=
  match c.op with
  | .placed _ _ _ _ _ => some c.key
  | _ => none

/-- No key is placed twice. -/
def PlacedOnce (calls : List Call) : Prop := (calls.filterMap Call.placedKey).Nodup

theorem run_concat (calls : List Call) (c : Call) : run (calls ++ [c]) = (run calls).call c := by
  rw [run, List.foldl_append]
  rfl

theorem log_call (t : OrderTelemetry) (c : Call) :
    ∀ e ∈ (t.call c).log, e ∈ t.log ∨ e.ts = round c.clock.logged 3 := by
  intro e he
  have hcalled := called t c
  generalize t.call c = t' at hcalled he
  cases hcalled with
  | unseen _ _ => exact .inl he
  | placed _ _ _ _ _ _ | moved _ _ _ _ _ _ | rested _ _ _ _ _ _ _ | terminal _ _ _ _ =>
    rcases List.mem_append.1 he with hold | hnew
    · exact .inl hold
    · rw [List.mem_singleton.1 hnew]
      exact .inr rfl

theorem orders_call (t : OrderTelemetry) (c : Call) {key : OrderKey}
    (hnone : t.orders.get? key = none) (hplaced : c.placedKey ≠ some key) :
    (t.call c).orders.get? key = none := by
  have hcalled := called t c
  generalize t.call c = t' at hcalled
  cases hcalled with
  | unseen _ _ => exact hnone
  | placed _ _ _ _ _ op =>
    have hne : key ≠ c.key := by
      rintro rfl
      exact hplaced (by rw [Call.placedKey, op])
    exact (Dict.get?_set_of_ne _ _ hne).trans hnone
  | moved r₀ _ _ get? _ _ | rested r₀ _ _ _ _ _ get? =>
    have hne : key ≠ c.key := by
      rintro rfl
      rw [hnone] at get?
      cases get?
    exact (Dict.get?_set_of_ne _ _ hne).trans hnone
  | terminal _ _ _ _ =>
    by_cases hk : key = c.key
    · subst hk
      exact Dict.get?_erase_self _ _
    · exact (Dict.get?_erase_of_ne _ hk).trans hnone

/-- Every event carries the reading of the clock of one of the calls. -/
theorem exists_call_of_mem_log (he : e ∈ (run calls).log) :
    ∃ c ∈ calls, e.ts = round c.clock.logged 3 := by
  induction calls using List.reverseRecOn with
  | nil => cases he
  | append_singleton calls c ih =>
    rw [run_concat] at he
    rcases log_call _ _ e he with hold | hnew
    · obtain ⟨c', hc', hts⟩ := ih hold
      exact ⟨c', List.mem_append_left _ hc', hts⟩
    · exact ⟨c, by simp, hnew⟩

/-- A key that was never placed has no record. -/
theorem get?_run_of_not_placed {key : OrderKey} (h : key ∉ calls.filterMap Call.placedKey) :
    (run calls).orders.get? key = none := by
  induction calls using List.reverseRecOn with
  | nil => rfl
  | append_singleton calls c ih =>
    rw [List.filterMap_append, List.mem_append, not_or] at h
    rw [run_concat]
    refine orders_call _ _ (ih h.1) fun hc ↦ h.2 ?_
    rw [List.filterMap_cons_some hc]
    exact List.mem_cons_self

theorem Steady.logged_le (h : Steady (calls ++ [c])) :
    ∀ c' ∈ calls, c'.clock.logged ≤ c.clock.logged := by
  intro c' hc'
  rw [Steady, List.flatMap_append, List.pairwise_append] at h
  refine h.2.2 _ (List.mem_flatMap.2 ⟨c', hc', ?_⟩) _ ?_ <;> simp

theorem Steady.ts_le (h : Steady (calls ++ [c])) :
    ∀ e ∈ (run calls).log, e.ts ≤ round c.clock.logged 3 := by
  intro e he
  obtain ⟨c', hc', hts⟩ := exists_call_of_mem_log he
  rw [hts]
  exact round_mono (h.logged_le c' hc') 3

theorem Steady.of_prefix {before : List Call} (h : Steady calls) (hbefore : before <+: calls) :
    Steady before := by
  obtain ⟨after, rfl⟩ := hbefore
  rw [Steady, List.flatMap_append] at h
  exact (List.pairwise_append.1 h).1

theorem PlacedOnce.of_prefix {before : List Call} (h : PlacedOnce calls)
    (hbefore : before <+: calls) : PlacedOnce before :=
  h.sublist (hbefore.sublist.filterMap _)

theorem PlacedOnce.fresh (h : PlacedOnce (calls ++ [c])) :
    ∀ side price qty sealed marketable, c.op = .placed side price qty sealed marketable →
      (run calls).orders.get? c.key = none := by
  intro side price qty sealed marketable op
  have hkey : c.placedKey = some c.key := by rw [Call.placedKey, op]
  rw [PlacedOnce, List.filterMap_append, List.filterMap_cons_some hkey, List.filterMap_nil] at h
  refine get?_run_of_not_placed fun hmem ↦ ?_
  exact (List.disjoint_of_nodup_append h) hmem (List.mem_singleton_self _)

/-- Plain calls lead from agreement to agreement. -/
theorem agreement_run (hclock : Steady calls) (honce : PlacedOnce calls)
    (hplain : AlongRun OrderTelemetry.call Plain .init calls) : Agreement (run calls) := by
  induction calls using List.reverseRecOn with
  | nil => exact agreement_init
  | append_singleton calls c ih =>
    have hbefore : calls <+: calls ++ [c] := List.prefix_append calls [c]
    rw [alongRun_concat] at hplain
    rw [run_concat]
    exact (ih (hclock.of_prefix hbefore) (honce.of_prefix hbefore) hplain.1).call hclock.ts_le
      honce.fresh hplain.2

/-- The live gauges agree with the verdict all along a run exactly if every call of it is plain. -/
theorem countsAgree_iff_plain {calls : List Call} (hclock : Steady calls)
    (honce : PlacedOnce calls) (target : ℚ) :
    (∀ before, before <+: calls → ∀ now, (∀ c ∈ before, c.clock.logged ≤ now) →
      CountsAgree (run before) target now) ↔
    AlongRun OrderTelemetry.call Plain .init calls := by
  constructor
  · intro hagree
    induction calls using List.reverseRecOn with
    | nil => trivial
    | append_singleton calls c ih =>
      have hinit : calls <+: calls ++ [c] := List.prefix_append calls [c]
      have hplain := ih (hclock.of_prefix hinit) (honce.of_prefix hinit)
        fun before hbefore ↦ hagree before (hbefore.trans hinit)
      rw [alongRun_concat]
      refine ⟨hplain, ?_⟩
      have hagreement := agreement_run (hclock.of_prefix hinit) (honce.of_prefix hinit) hplain
      refine hagreement.plain_of_call target fun now hnow ↦ ?_
      rw [← run_concat]
      refine hagree _ List.prefix_rfl now fun c' hc' ↦ ?_
      rcases List.mem_append.1 hc' with hold | hnew
      · exact (hclock.logged_le c' hold).trans hnow
      · rwa [List.mem_singleton.1 hnew]
  · intro hplain before hbefore now _
    have hsteady := hclock.of_prefix hbefore
    have hplaced := honce.of_prefix hbefore
    obtain ⟨after, rfl⟩ := hbefore
    have hagreement := agreement_run hsteady hplaced (alongRun_append.1 hplain).1
    exact (countsAgree_iff _ _ _).2 ⟨hagreement.cleared, hagreement.missed, hagreement.stale now⟩

/-- One order, placed marketable and filled in its round; another that rests, with an expiry. -/
def plainRun : List Call :=
  [⟨⟨0, 7, 1⟩, ⟨1, 1, 1⟩, .placed 0 100 5 false true⟩,
    ⟨⟨0, 8, 1⟩, ⟨2, 2, 2⟩, .placed 1 100 9 false true⟩,
    ⟨⟨0, 7, 1⟩, ⟨3, 3, 3⟩, .rounded⟩,
    ⟨⟨0, 8, 1⟩, ⟨3, 3, 3⟩, .rounded⟩,
    ⟨⟨0, 7, 1⟩, ⟨4, 4, 4⟩, .terminal .filled 5 none⟩,
    ⟨⟨0, 8, 1⟩, ⟨5, 5, 5⟩, .rested 100 true 5 (some 90)⟩]

theorem countsAgree_iff_plain_plainRun :
    Steady plainRun ∧ PlacedOnce plainRun ∧
      ∀ before, before <+: plainRun → ∀ now, (∀ c ∈ before, c.clock.logged ≤ now) →
        CountsAgree (run before) (9999 / 10000) now :=
  have hclock : Steady plainRun := by unfold Steady; decide +kernel
  have honce : PlacedOnce plainRun := by unfold PlacedOnce; decide +kernel
  ⟨hclock, honce, (countsAgree_iff_plain hclock honce (9999 / 10000)).2 (by decide +kernel)⟩

/-- An order that rests in an auction and fills in a later one. -/
def filledAfterRest : List Call :=
  [⟨⟨0, 7, 1⟩, ⟨1, 1, 1⟩, .placed 0 100 5 false true⟩,
    ⟨⟨0, 7, 1⟩, ⟨2, 2, 2⟩, .rounded⟩,
    ⟨⟨0, 7, 1⟩, ⟨3, 3, 3⟩, .rested 100 true 0 (some 90)⟩,
    ⟨⟨0, 7, 1⟩, ⟨4, 4, 4⟩, .terminal .filled 5 none⟩]

/-- The verdict counts it as cleared, the live gauge does not. -/
theorem not_countsAgree_filledAfterRest :
    Steady filledAfterRest ∧ PlacedOnce filledAfterRest ∧
      (∀ c ∈ filledAfterRest, c.clock.logged ≤ 6) ∧
      ((run filledAfterRest).snapshot 6).cleared = 0 ∧
      (score (load (run filledAfterRest).log) (9999 / 10000) openGrace 6).cleared = 1 ∧
      ¬ CountsAgree (run filledAfterRest) (9999 / 10000) 6 := by
  have hlive : ((run filledAfterRest).snapshot 6).cleared = 0 := by decide +kernel
  have hreport :
      (score (load (run filledAfterRest).log) (9999 / 10000) openGrace 6).cleared = 1 := by
    decide +kernel
  refine ⟨by unfold Steady; decide +kernel, by unfold PlacedOnce; decide +kernel,
    by decide +kernel, hlive, hreport, ?_⟩
  rintro ⟨hcleared, -, -⟩
  rw [hlive, hreport] at hcleared
  cases hcleared

end Jamswap.Telemetry
