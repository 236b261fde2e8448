/-
Counting down. A countdown knows the milliseconds that were left at its anchor, the last instant at
which the time passed was taken off; without an anchor it stands still. It is run in ticks of at
most a quarter of a second, down to a floor, and it can be held by a pause.
-/
import StepTimer.Time.Instant
import StepTimer.Step.Basic

namespace StepTimer

/-- The controls of a run. An abort is final, a pause is not. -/
structure Signals where
  aborted : Bool := false
  paused : Bool := false
deriving DecidableEq, Repr

def countMin : Int := -0x8000000000000000

def countMax : Int := 0x7FFFFFFFFFFFFFFF

/-- The milliseconds left, and the instant they were left at. -/
structure Countdown where
  remaining : Int
  anchor : Option Instant
deriving DecidableEq, Repr

namespace Countdown

def start (total : UInt64) (now : Instant) : Countdown := ⟨min (total.toNat : Int) countMax, some now⟩

/-- The milliseconds left, none below zero. -/
def remainingMs (c : Countdown) : UInt64 := UInt64.ofNat c.remaining.toNat

def expired (c : Countdown) : Bool := c.remaining ≤ 0

/-- Takes the whole milliseconds since the anchor off, and anchors anew. -/
def settle (c : Countdown) (now : Instant) : Countdown :=
  match c.anchor with
  | none => c
  | some t => ⟨max countMin (c.remaining - min (now.millisSince t : Int) countMax), some now⟩

def suspend (c : Countdown) (now : Instant) : Countdown := ⟨(c.settle now).remaining, none⟩

/-- Counts from now on, whether or not the countdown stood still. -/
def anchorAt (c : Countdown) (now : Instant) : Countdown := { c with anchor := some now }

/-- Counts from now on if the countdown stood still. -/
def resume (c : Countdown) (now : Instant) : Countdown :=
  if c.anchor.isNone then c.anchorAt now else c

end Countdown

/-- The longest tick in milliseconds. -/
def tickMs : Int := 250

/-- Where a running countdown is. -/
inductive TickPhase where
  /-- About to decide what to do. -/
  | top
  /-- Held by a pause. -/
  | held
  /-- Asleep until the alarm. -/
  | asleep (alarm : Instant)
deriving DecidableEq, Repr

/-- A countdown that runs down to a floor; after every tick its time is reported for a step, if one
is named. -/
structure Ticking where
  countdown : Countdown
  floor : Int
  reportAs : Option StepId
  phase : TickPhase
deriving DecidableEq, Repr

/-- What a running countdown does next. -/
inductive TickMove where
  | ended (countdown : Countdown)
  | goes (ticking : Ticking)
  /-- A tick has passed and its time is reported. -/
  | ticked (ticking : Ticking)
deriving Repr

namespace Ticking

/-- A countdown that begins to run. The floor is not below zero. -/
def start (countdown : Countdown) (floor : Int) (reportAs : Option StepId) : Ticking :=
  ⟨countdown, max floor 0, reportAs, .top⟩

/-- The length of the next tick. -/
def tick (t : Ticking) : Int := min (t.countdown.remaining - t.floor) tickMs

/-- The next move of a running countdown; none while it waits. It ends at its floor, by an abort and
by a dismissal, and these also end a tick or a pause early. -/
def advance (now : Instant) (signals : Signals) (dismissed : Bool) (t : Ticking) :
    Option TickMove :=
  match t.phase with
  | .top =>
    if signals.aborted || t.countdown.remaining ≤ t.floor || dismissed then
      some (.ended t.countdown)
    else if signals.paused then
      some (.goes { t with countdown := t.countdown.suspend now, phase := .held })
    else
      some (.goes { t with
        countdown := t.countdown.resume now, phase := .asleep (now.plusMillis t.tick.toNat) })
  | .held =>
    if !signals.paused || signals.aborted || dismissed then
      some (.goes { t with countdown := t.countdown.anchorAt now, phase := .top })
    else none
  | .asleep alarm =>
    if alarm.nanos ≤ now.nanos || signals.paused || signals.aborted || dismissed then
      some (.ticked { t with countdown := t.countdown.settle now, phase := .top })
    else none

/-- The alarm that a running countdown has set. -/
def alarms (t : Ticking) : List Instant :=
  match t.phase with
  | .asleep alarm => [alarm]
  | _ => []

end Ticking

end StepTimer
