/-
The entry of a timer in the table of runs: what the timer is doing, and by which run.
-/
import StepTimer.Run.State
import StepTimer.Time.Stopwatch
import StepTimer.Engine.Activity

namespace StepTimer

/-- What is known of a timer's run. -/
structure RunEntry where
  status : RunStatus := .idle
  activeStepId : Option StepId := none
  remainingMs : Option UInt64 := none
  /-- The run that the timer is in. -/
  token : Option RunId := none
  /-- The number of runs begun so far. -/
  generation : Nat := 0
  lastOutcome : Option RunOutcome := none
  stopwatch : Stopwatch := {}
deriving DecidableEq, Repr

namespace RunEntry

def snapshot (e : RunEntry) (now : Instant) : RunState :=
  ⟨e.status, e.activeStepId, e.remainingMs, e.stopwatch.elapsedMs now, e.lastOutcome⟩

def clearPosition (e : RunEntry) : RunEntry := { e with activeStepId := none, remainingMs := none }

/-- The entry when its stopwatch starts or goes on. -/
def startWatch (e : RunEntry) (now : Instant) : RunEntry :=
  { e with stopwatch := e.stopwatch.start now, status := .running }

def pauseWatch (e : RunEntry) (now : Instant) : RunEntry :=
  { e with
    stopwatch := e.stopwatch.pause now
    status := if e.status = .running then .paused else e.status }

/-- The entry when its stopwatch starts again from zero. -/
def restartWatch (e : RunEntry) (now : Instant) : RunEntry :=
  { e with stopwatch := e.stopwatch.restart now, status := .running }

/-- The entry when its stopwatch goes back to zero. -/
def resetWatch (e : RunEntry) : RunEntry := { e with stopwatch := e.stopwatch.reset }

/-- The run that a pause would hold: that of a running timer. -/
def pausable (e : RunEntry) : Option RunId := if e.status = .running then e.token else none

/-- The run that a resume would let go on: that of a paused timer. -/
def resumable (e : RunEntry) : Option RunId := if e.status = .paused then e.token else none

def paused (e : RunEntry) : RunEntry :=
  if e.pausable.isSome then { e with status := .paused } else e

def resumed (e : RunEntry) : RunEntry :=
  if e.resumable.isSome then { e with status := .running } else e

def stopped (e : RunEntry) (now : Instant) : RunEntry :=
  { e.clearPosition with
    stopwatch := e.stopwatch.pause now
    token := none
    lastOutcome := if e.status = .idle then e.lastOutcome else some .aborted
    status := .idle }

def begun (e : RunEntry) (run : RunId) (firstStep : Option StepId) : RunEntry :=
  { e with
    generation := e.generation + 1
    token := some run
    status := .running
    activeStepId := firstStep
    remainingMs := none }

/-- The entry when the run of a generation reports a step; other runs change nothing. -/
def reported (e : RunEntry) (generation : Nat) (step : StepId) (remaining : Option UInt64) :
    RunEntry :=
  if e.generation = generation then { e with activeStepId := some step, remainingMs := remaining }
  else e

/-- The entry when the run of a generation has come to its end; other runs change nothing. -/
def finished (e : RunEntry) (generation : Nat) : RunEntry :=
  if e.generation = generation then
    { e.clearPosition with token := none, status := .idle, lastOutcome := some .completed }
  else e

end RunEntry

end StepTimer
