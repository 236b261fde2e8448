/-
The log of runs. It follows the announcements of all timers and writes a line when the state of one
changes and when a step of it becomes active. Each timer is compared with its own last announcement
only; a timer that was dropped starts anew.
-/
import StepTimer.Run.State

namespace StepTimer

/-- The importance of a line. -/
inductive LogLevel where
  | info | warn | debug
deriving DecidableEq, Repr

/-- What a line of the log says. -/
inductive LogLine where
  | started
  | stopped
  /-- Announcements were lost. -/
  | fellBehind (skipped : Nat)
  | deleted (timer : TimerId)
  | becameIdle (timer : TimerId) (outcome : RunOutcome)
  | became (timer : TimerId) (status : RunStatus)
  | atStep (timer : TimerId) (step : StepId) (remaining : Option String)
deriving DecidableEq, Repr

namespace LogLine

def level : LogLine → LogLevel
  | started => .info
  | stopped => .info
  | fellBehind _ => .warn
  | deleted _ => .debug
  | becameIdle _ _ => .info
  | became _ _ => .info
  | atStep _ _ _ => .debug

def outcomeWord : RunOutcome → String
  | .completed => "Completed"
  | .aborted => "Aborted"

def statusWord : RunStatus → String
  | .idle => "Idle"
  | .running => "Running"
  | .paused => "Paused"

def message : LogLine → String
  | started => "Starting progress log task"
  | stopped => "Progress log task stopped"
  | fellBehind skipped => "Progress log fell behind, skipped " ++ skipped.repr ++ " updates"
  | deleted timer => "Timer " ++ timer ++ " deleted"
  | becameIdle timer outcome => "Timer " ++ timer ++ " is idle (" ++ outcomeWord outcome ++ ")"
  | became timer status => "Timer " ++ timer ++ " is " ++ statusWord status
  | atStep timer step none => "Timer " ++ timer ++ " at step " ++ step
  | atStep timer step (some left) =>
    "Timer " ++ timer ++ " at step " ++ step ++ " (" ++ left ++ " left)"

end LogLine

/-- The last announced state of each timer. -/
structure TransitionLog where
  lastSeen : List (TimerId × RunState) := []
deriving Repr

namespace TransitionLog

/-- The last announced state of a timer. -/
def last? (log : TransitionLog) (timer : TimerId) : Option RunState := log.lastSeen.lookup timer

/-- The line for a change of state, the state before the first announcement being idle. -/
def statusLines (timer : TimerId) (previous : Option RunState) (state : RunState) : List LogLine :=
  if state.status = (previous.map (·.status)).getD .idle then []
  else
    match state.status, state.lastOutcome with
    | .idle, some outcome => [.becameIdle timer outcome]
    | status, _ => [.became timer status]

/-- The line for a step that has become active. -/
def stepLines (timer : TimerId) (previous : Option RunState) (state : RunState) : List LogLine :=
  match state.activeStepId with
  | none => []
  | some step =>
    if some step = previous.bind (·.activeStepId) then []
    else [.atStep timer step state.remainingDisplay]

/-- Takes an announcement, and gives the lines it is worth. -/
def record (log : TransitionLog) (u : RunUpdate) : TransitionLog × List LogLine :=
  let others := log.lastSeen.filter fun e => e.1 ≠ u.timerId
  if u.forgotten then (⟨others⟩, [.deleted u.timerId])
  else
    let previous := log.last? u.timerId
    (⟨(u.timerId, u.state) :: others⟩,
      statusLines u.timerId previous u.state ++ stepLines u.timerId previous u.state)

def recordAll (log : TransitionLog) : List RunUpdate → TransitionLog × List LogLine
  | [] => (log, [])
  | u :: rest =>
    let (log, lines) := log.record u
    let (log, more) := log.recordAll rest
    (log, lines ++ more)

/-- The log of announcements that all came before the first was taken, over a channel that keeps so
many: the oldest ones are lost. -/
def follow (capacity : Nat) (updates : List RunUpdate) : List LogLine :=
  let lost := updates.length - capacity
  let warning : List LogLine := if lost = 0 then [] else [.fellBehind lost]
  .started :: warning ++ ((⟨[]⟩ : TransitionLog).recordAll (updates.drop lost)).2 ++ [.stopped]

end TransitionLog

end StepTimer
