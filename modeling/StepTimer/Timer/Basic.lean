/-
Timers. A timer is a named list of steps; an alarm and a sequence run them, a stopwatch measures
time instead and keeps the laps that were marked.
-/
import StepTimer.Step.Basic

namespace StepTimer

/-- The name of a timer, unique in the registry. -/
abbrev TimerId := String

/-- How a timer is run. -/
inductive TimerMode where
  | alarm | sequence | stopwatch
deriving DecidableEq, Repr, Inhabited

/-- A lap of a stopwatch. -/
structure LogEntry where
  id : String
  name : String
  /-- The time on the stopwatch. -/
  elapsedMs : UInt64
  /-- The time on the wall clock. -/
  loggedAtEpochMs : Int64
deriving DecidableEq, Repr

/-- A timer of the registry. -/
structure Timer where
  id : TimerId
  name : String
  steps : List Step := []
  mode : TimerMode := .sequence
  /-- A locked timer refuses to change its steps. -/
  locked : Bool := false
  logs : List LogEntry := []
deriving Repr

namespace Timer

/-- Locks or unlocks the timer. A stopwatch stays unlocked. -/
def setLocked (t : Timer) (locked : Bool) : Timer :=
  { t with locked := locked && t.mode ≠ .stopwatch }

/-- Whether the timer has a lap of a name. -/
def hasLog (t : Timer) (log : String) : Bool := t.logs.any fun l => l.id = log

/-- Renames the first entry of a name in a list of laps. -/
def renameIn (log name : String) : List LogEntry → List LogEntry
  | [] => []
  | l :: rest => if l.id = log then { l with name := name } :: rest else l :: renameIn log name rest

/-- Renames a lap, if there is one of that name. -/
def renameLog (t : Timer) (log name : String) : Timer :=
  { t with logs := renameIn log name t.logs }

def deleteLog (t : Timer) (log : String) : Timer :=
  { t with logs := t.logs.filter fun l => l.id ≠ log }

end Timer

end StepTimer
