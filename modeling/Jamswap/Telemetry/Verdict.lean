import Jamswap.Telemetry.Orders

/-!
# The soak verdict

The verdict reads the log of a run after the fact. `load` groups the events by order, `judge` says
from one order's events how it fared, and `score` tallies the orders into the report.
-/

namespace Jamswap.Telemetry

open Library

/-- What became of an order, as the verdict sees it. -/
inductive OrderClass
  | resting
  | open
  | cleared
  | missed
  | expiredNonmarketable
  | other
  deriving DecidableEq, Repr

structure Verdict where
  marketable : Bool
  crossed : Bool
  sealed : Bool
  deferrals : ℕ
  retries : ℕ
  reverts : ℕ
  placed : Bool
  terminal : Option Outcome
  latency : Option Time
  filled : ℤ
  expiresAt : Option Time
  cls : OrderClass
  deriving DecidableEq, Repr

/-! ### The fields of an event -/

namespace Event

/-- The sealed flag of a `placed` event. -/
def placed? (e : Event) : Option Bool :=
  match e.change with
  | .placed _ _ _ sealed => some sealed
  | _ => none

/-- Outcome, fill and latency of a `terminal` event. -/
def terminal? (e : Event) : Option (Outcome × ℤ × Time) :=
  match e.change with
  | .terminal outcome filled _ latency _ => some (outcome, filled, latency)
  | _ => none

/-- The crossed flag and the expiry of a `rested` event. -/
def rested? (e : Event) : Option (Bool × Option Time) :=
  match e.change with
  | .rested _ crossed _ expiresAt => some (crossed, expiresAt)
  | _ => none

def isDeferred (e : Event) : Bool :=
  match e.change with
  | .deferred _ => true
  | _ => false

def isReverted (e : Event) : Bool :=
  match e.change with
  | .reverted _ => true
  | _ => false

/-- `e.get("retries", 0)`. -/
def retries (e : Event) : ℕ :=
  match e.change with
  | .reverted retries => retries
  | .requeued retries => retries
  | .terminal _ _ retries _ _ => retries
  | _ => 0

end Event

/-! ### One order -/

/-- The outcomes the verdict counts as missed; its set is its own. -/
def verdictMissed (outcome : Outcome) : Bool :=
  outcome = .expired || outcome = .lost || outcome = .cancelled || outcome = .partialCancelled ||
    outcome = .rejected

/-- The class of an order by its first terminal event, if it has one. -/
def classify (marketable : Bool) (term : Option Outcome) (restedLast : Bool) : OrderClass :=
  match term with
  | none => if restedLast then .resting else .open
  | some outcome =>
    if outcome = .filled then .cleared
    else if verdictMissed outcome then
      if marketable then .missed else .expiredNonmarketable
    else .other

def judge (events : List Event) : Verdict :=
  let placed := events.findSome? Event.placed?
  let term := events.findSome? Event.terminal?
  let rests := events.filterMap Event.rested?
  -- an auction that left the order resting has decided it
  let marketable := rests.isEmpty && events.any Event.marketable
  { marketable
    crossed := rests.any Prod.fst
    sealed := placed.getD false
    deferrals := events.countP Event.isDeferred
    retries := (events.map Event.retries).foldl max 0
    reverts := events.countP Event.isReverted
    placed := placed.isSome
    terminal := term.map Prod.fst
    latency := term.map (·.2.2)
    filled := (term.map (·.2.1)).getD 0
    expiresAt := rests.getLast?.bind Prod.snd
    cls := classify marketable (term.map Prod.fst) (events.getLast?.any (·.rested?.isSome)) }

/-! ### The report -/

/-- The order events of a log, by order. -/
def load (log : List Event) : Dict OrderKey (List Event) := Dict.group Event.key log

/-- The latest time of the events. -/
def lastSeen (events : List Event) : Option Time := (events.map Event.ts).max?

/-- How long past its due time an order without an end is still open, if past the grace: since its
last event for an open one, since its expiry for a resting one. -/
def stuckFor (openGrace now : Time) (events : List Event) : Option Time :=
  let v := judge events
  let due := match v.cls with
    | .open => lastSeen events
    | .resting => truthy v.expiresAt
    | _ => none
  (due.map (now - ·)).filter (openGrace < ·)

structure SealedReport where
  seen : ℕ
  terminal : ℕ
  stuckOpen : ℕ
  zeroLoss : Bool
  breakdown : OrderClass → ℕ
  sampleLost : List (OrderKey × Time)

structure Report where
  ordersSeen : ℕ
  slo : ℚ
  target : ℚ
  pass : Bool
  cleared : ℕ
  missed : ℕ
  missedTerminal : ℕ
  breakdown : OrderClass → ℕ
  resting : ℕ
  restingCrossed : ℕ
  ordersWithRetries : ℕ
  clearLatencyP50 : Option Time
  clearLatencyP99 : Option Time
  stuckOpenCount : ℕ
  stuckOpen : List (OrderKey × Time)
  sampleMissed : List (OrderKey × Option Outcome × ℕ)
  sealed : SealedReport

/-- How many orders are in the class. -/
def tally (orders : Dict OrderKey (List Event)) (cls : OrderClass) : ℕ :=
  orders.countP fun events ↦ (judge events).cls = cls

/-- The orders stuck open, each with how long it is overdue. -/
def stuckOpen (openGrace now : Time) (orders : Dict OrderKey (List Event)) :
    List (OrderKey × Time) :=
  orders.entries.filterMap fun o ↦ (stuckFor openGrace now o.2).map fun age ↦ (o.1, round age 1)

def score (orders : Dict OrderKey (List Event)) (target openGrace now : ℚ) : Report :=
  let isSealed := fun events ↦ (judge events).sealed
  let stuck := stuckOpen openGrace now orders
  let sealedLost := orders.entries.filterMap fun o ↦
    if isSealed o.2 && (judge o.2).cls = .open then
      (stuckFor openGrace now o.2).map fun age ↦ (o.1, round age 1)
    else none
  let latencies := (orders.values.filter fun events ↦ (judge events).cls = .cleared).filterMap
    fun events ↦ (judge events).latency
  let sorted := latencies.mergeSort (· ≤ ·)
  let cleared := tally orders .cleared
  let missed := tally orders .missed + stuck.length
  let slo := if cleared + missed = 0 then 1 else cleared / (cleared + missed : ℕ)
  { ordersSeen := orders.entries.length
    slo := round slo 6
    target
    pass := target ≤ slo && stuck.isEmpty && sealedLost.isEmpty
    cleared
    missed
    missedTerminal := tally orders .missed
    breakdown := tally orders
    resting := tally orders .resting
    restingCrossed := orders.countP fun events ↦
      (judge events).cls = .resting && (judge events).crossed
    ordersWithRetries := orders.countP fun events ↦ (judge events).retries ≠ 0
    clearLatencyP50 := sorted[sorted.length / 2]?
    clearLatencyP99 := sorted[min (sorted.length - 1) (sorted.length * 99 / 100)]?
    stuckOpenCount := stuck.length
    stuckOpen := stuck.take 20
    sampleMissed := (orders.entries.filter fun o ↦ (judge o.2).cls = .missed).map
      (fun o ↦ (o.1, (judge o.2).terminal, (judge o.2).retries)) |>.take 20
    sealed :=
      { seen := orders.countP isSealed
        terminal := orders.countP fun events ↦ isSealed events && (judge events).terminal.isSome
        stuckOpen := sealedLost.length
        zeroLoss := sealedLost.isEmpty
        breakdown cls := orders.countP fun events ↦ isSealed events && (judge events).cls = cls
        sampleLost := sealedLost.take 20 } }

end Jamswap.Telemetry
