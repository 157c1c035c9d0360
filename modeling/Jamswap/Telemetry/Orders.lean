import Jamswap.Library.Dict
import Mathlib.Data.Rat.Floor

/-!
# Order telemetry

The builder follows every order from its placement to its end. Each call updates the record of the
order and appends one event to a log; a terminal call takes the record out and, for an order still
marketable, counts it as cleared or missed. `snapshot` reports the counts and how many of the open
orders are stale. Times are seconds, with exact arithmetic in place of floating point; the events
carry them rounded to milliseconds.
-/

namespace Jamswap.Telemetry

open Library

/-- Seconds. -/
abbrev Time := ℚ

/-- To the nearest integer, halves to the even one. -/
def roundHalfEven (x : ℚ) : ℤ :=
  let q := ⌊x⌋
  let r := x - q
  if r < 1 / 2 then q
  else if 1 / 2 < r then q + 1
  else if q % 2 = 0 then q
  else q + 1

/-- Python's `round(x, digits)`. -/
def round (x : ℚ) (digits : ℕ) : ℚ := roundHalfEven (x * 10 ^ digits) / 10 ^ digits

/-- An order silent for so long is stuck open. -/
def openGrace : Time := 600

structure OrderKey where
  market : ℤ
  account : ℤ
  oid : ℤ
  deriving DecidableEq, Repr

/-- How an order ended. -/
inductive Outcome
  | filled
  | partialCancelled
  | cancelled
  | expired
  | rejected
  | lost
  /-- any other name a caller gives -/
  | other (name : String)
  deriving DecidableEq, Repr

inductive Phase
  | placed
  | rounded
  | deferred
  | rested
  deriving DecidableEq, Repr

/-- What an event of the log says, beside its time, order and marketable flag. -/
inductive Change
  | placed (side price qty : ℤ) (sealed : Bool)
  | rounded
  | reverted (retries : ℕ)
  | requeued (retries : ℕ)
  | deferred (reason : String)
  | rested (clearing : ℤ) (crossed : Bool) (filled : ℤ) (expiresAt : Option Time)
  | terminal (outcome : Outcome) (filled : ℤ) (retries : ℕ) (latency : Time)
      (reason : Option String)
  deriving DecidableEq, Repr

structure Event where
  ts : Time
  key : OrderKey
  marketable : Bool
  change : Change
  deriving DecidableEq, Repr

/-- The record of an open order. -/
structure Record where
  marketable : Bool
  placedAt : Time
  phase : Phase
  retries : ℕ
  last : Option Time
  expiresAt : Option Time
  deriving DecidableEq, Repr

/-- The open orders, the counts over marketable orders that ended, and the log. -/
structure OrderTelemetry where
  orders : Dict OrderKey Record
  cleared : ℕ
  missed : ℕ
  log : List Event

def OrderTelemetry.init : OrderTelemetry := ⟨.empty, 0, 0, []⟩

/-- A time that is set: Python takes zero for none. -/
def truthy (t : Option Time) : Option Time := t.filter (· ≠ 0)

/-- The expiry an event puts on record. -/
def Change.expiresAt : Change → Option Time
  | .rested _ _ _ expiresAt => truthy expiresAt
  | _ => none

/-- The clock, as a call reads it: when it begins, when it has judged, when it logs. -/
structure Clock where
  begun : Time
  judged : Time
  logged : Time
  deriving DecidableEq, Repr

/-- The event of a change of an order. -/
def event (key : OrderKey) (r : Record) (clock : Clock) (change : Change) : Event :=
  ⟨round clock.logged 3, key, r.marketable, change⟩

/-- The record after its event was logged. -/
def Record.noted (r : Record) (clock : Clock) (change : Change) : Record :=
  { r with last := some (round clock.logged 3), expiresAt := change.expiresAt.or r.expiresAt }

namespace OrderTelemetry

variable (t : OrderTelemetry) (key : OrderKey) (clock : Clock)

/-- Put a record on file and log its event. -/
def file (r : Record) (change : Change) : OrderTelemetry :=
  { t with
    orders := t.orders.set key (r.noted clock change)
    log := t.log ++ [event key r clock change] }

/-- A change of an open order; nothing for one that is not open. -/
def touch (update : Record → Record) (change : Record → Change) : OrderTelemetry :=
  match t.orders.get? key with
  | none => t
  | some r => t.file key clock (update r) (change (update r))

def placed (side price qty : ℤ) (sealed marketable : Bool) : OrderTelemetry :=
  t.file key clock ⟨marketable, clock.begun, .placed, 0, none, none⟩ (.placed side price qty sealed)

def rounded : OrderTelemetry :=
  t.touch key clock (fun r ↦ { r with phase := .rounded }) fun _ ↦ .rounded

def reverted : OrderTelemetry :=
  t.touch key clock (fun r ↦ { r with retries := r.retries + 1, phase := .rounded })
    fun r ↦ .reverted r.retries

def requeued : OrderTelemetry :=
  t.touch key clock (fun r ↦ { r with retries := r.retries + 1, phase := .placed })
    fun r ↦ .requeued r.retries

def deferred (reason : String) : OrderTelemetry :=
  t.touch key clock (fun r ↦ { r with phase := .deferred }) fun _ ↦ .deferred reason

/-- A settled auction left the order on the book, and has decided it. -/
def rested (clearing : ℤ) (crossed : Bool) (filled : ℤ) (expiresAt : Option Time) :
    OrderTelemetry :=
  t.touch key clock (fun r ↦ { r with phase := .rested, marketable := false })
    fun _ ↦ .rested clearing crossed filled ((truthy expiresAt).map (round · 3))

/-- Does the outcome count as cleared, for a marketable order? -/
def isCleared (outcome : Outcome) : Bool := outcome = .filled

/-- Does the outcome count as missed, for a marketable order? -/
def isMissed (outcome : Outcome) : Bool :=
  outcome = .expired || outcome = .lost || outcome = .partialCancelled || outcome = .rejected

/-- The order ended. One that was never placed gets a minimal record, which is not marketable. -/
def terminal (outcome : Outcome) (filled : ℤ) (reason : Option String) : OrderTelemetry :=
  let r := (t.orders.get? key).getD ⟨false, clock.begun, .placed, 0, none, none⟩
  let latency := clock.judged - r.placedAt
  { orders := t.orders.erase key
    cleared := if r.marketable && isCleared outcome then t.cleared + 1 else t.cleared
    missed := if r.marketable && !isCleared outcome && isMissed outcome then t.missed + 1
      else t.missed
    log := t.log ++ [event key r clock (.terminal outcome filled r.retries (round latency 2)
      (reason.filter (· ≠ "")))] }

end OrderTelemetry

/-! ### Runs -/

inductive Op
  | placed (side price qty : ℤ) (sealed marketable : Bool)
  | rounded
  | reverted
  | requeued
  | deferred (reason : String)
  | rested (clearing : ℤ) (crossed : Bool) (filled : ℤ) (expiresAt : Option Time)
  | terminal (outcome : Outcome) (filled : ℤ) (reason : Option String)
  deriving DecidableEq, Repr

structure Call where
  key : OrderKey
  clock : Clock
  op : Op
  deriving DecidableEq, Repr

def OrderTelemetry.call (t : OrderTelemetry) (c : Call) : OrderTelemetry :=
  match c.op with
  | .placed side price qty sealed marketable =>
    t.placed c.key c.clock side price qty sealed marketable
  | .rounded => t.rounded c.key c.clock
  | .reverted => t.reverted c.key c.clock
  | .requeued => t.requeued c.key c.clock
  | .deferred reason => t.deferred c.key c.clock reason
  | .rested clearing crossed filled expiresAt =>
    t.rested c.key c.clock clearing crossed filled expiresAt
  | .terminal outcome filled reason => t.terminal c.key c.clock outcome filled reason

def run (calls : List Call) : OrderTelemetry := calls.foldl OrderTelemetry.call OrderTelemetry.init

/-! ### The live report -/

/-- How late an open order is: a resting one past its own expiry, another since its last event. -/
def Record.late (r : Record) (now : Time) : Time :=
  if r.phase = .rested then (r.expiresAt.map (now - ·)).getD 0
  else now - r.last.getD r.placedAt

structure Snapshot where
  cleared : ℕ
  missed : ℕ
  openCount : ℕ
  phases : Phase → ℕ
  stale : ℕ
  oldest : Time
  slo : ℚ
  marketableTerminal : ℕ

def OrderTelemetry.snapshot (t : OrderTelemetry) (now : Time) : Snapshot where
  cleared := t.cleared
  missed := t.missed
  openCount := t.orders.values.length
  phases ph := t.orders.values.countP (·.phase = ph)
  stale := t.orders.countP fun r ↦ openGrace < r.late now
  oldest := t.orders.values.foldl (fun oldest r ↦ max oldest (r.late now)) 0
  slo := if t.cleared + t.missed = 0 then 1 else t.cleared / (t.cleared + t.missed : ℕ)
  marketableTerminal := t.cleared + t.missed

end Jamswap.Telemetry
