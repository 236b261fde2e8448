/-
The stopwatch: time adds up while it runs. A pause folds the running segment into the total, and a
later start adds to it. A segment whose end lies before its begin counts as nothing.
-/
import StepTimer.Time.Instant

namespace StepTimer

/-- A stopwatch: the nanoseconds of the segments that are over, and the begin of the running one. -/
structure Stopwatch where
  /-- It has no bound here. A duration holds up to 2⁶⁴ seconds, and the total stays below the reading of the
  clock as long as that does not go back, so it leaves this range only where the clock itself does. -/
  total : Nat := 0
  startedAt : Option Instant := none
deriving DecidableEq, Repr

namespace Stopwatch

def isRunning (w : Stopwatch) : Bool := w.startedAt.isSome

/-- Starts or goes on; a running stopwatch is left alone. -/
def start (w : Stopwatch) (now : Instant) : Stopwatch :=
  match w.startedAt with
  | none => { w with startedAt := some now }
  | some _ => w

/-- Stops; a stopwatch that stands still is left alone. -/
def pause (w : Stopwatch) (now : Instant) : Stopwatch :=
  match w.startedAt with
  | none => w
  | some t => ⟨w.total + now.since t, none⟩

def reset (_ : Stopwatch) : Stopwatch := {}

def restart (_ : Stopwatch) (now : Instant) : Stopwatch := ⟨0, some now⟩

/-- The nanoseconds on the stopwatch. -/
def elapsed (w : Stopwatch) (now : Instant) : Nat :=
  match w.startedAt with
  | none => w.total
  | some t => w.total + now.since t

/-- The whole milliseconds on the stopwatch, at most the largest 64-bit count. -/
def elapsedMs (w : Stopwatch) (now : Instant) : UInt64 :=
  UInt64.ofNatClamp (w.elapsed now / Instant.nanosPerMilli)

end Stopwatch

end StepTimer
