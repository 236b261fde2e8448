/-
The requests that the application takes, as values, and what it replies.
-/
import StepTimer.App.Steps
import StepTimer.App.Runs

namespace StepTimer

/-- A request to the application. -/
inductive Command where
  | create (name : String) (mode : TimerMode)
  | update (id : TimerId) (name : Option String) (locked : Option Bool)
  | delete (id : TimerId)
  | get (id : TimerId)
  | list
  | insertStep (id : TimerId) (target : DropTarget) (kind : StepKind)
  | replaceStep (id : TimerId) (step : StepId) (kind : StepKind)
  | deleteStep (id : TimerId) (step : StepId)
  | moveStep (id : TimerId) (step : StepId) (target : DropTarget)
  | duplicateStep (id : TimerId) (step : StepId)
  | start (id : TimerId)
  | pause (id : TimerId)
  | restart (id : TimerId)
  | stop (id : TimerId)
  | runState (id : TimerId)
  | mark (id : TimerId) (name : Option String)
  | reset (id : TimerId)
  | renameLog (id : TimerId) (log name : String)
  | deleteLog (id : TimerId) (log : String)
  | persist

/-- What the application replies to a request that it has carried out. -/
inductive Reply where
  | done
  | timer (timer : Timer)
  | timers (timers : List Timer)
  | run (state : RunState)
  | lap (lap : LogEntry)

/-- Whether the timers are stored in the course of a request. -/
def Command.stores : Command → Bool
  | get _ => false
  | list => false
  | start _ => false
  | pause _ => false
  | restart _ => false
  | stop _ => false
  | runState _ => false
  | _ => true

namespace App

def replied {α : Type} (outcome : Outcome α) (reply : α → Reply) : Outcome Reply :=
  (outcome.1.map reply, outcome.2)

def perform (a : App) (now : Instant) : Command → Outcome Reply
  | .create name mode => replied (a.createTimer name mode now) .timer
  | .update id name locked => replied (a.updateTimer id name locked now) .timer
  | .delete id => replied (a.deleteTimer id now) fun _ => .done
  | .get id => replied (a.getTimer id, a) .timer
  | .list => (.ok (.timers a.timers), a)
  | .insertStep id target kind => replied (a.insertStep id target kind now) .timer
  | .replaceStep id step kind => replied (a.replaceStep id step kind now) .timer
  | .deleteStep id step => replied (a.deleteStep id step now) .timer
  | .moveStep id step target => replied (a.moveStep id step target now) .timer
  | .duplicateStep id step => replied (a.duplicateStep id step now) .timer
  | .start id => replied (a.start id now) .run
  | .pause id => replied (a.pause id now) .run
  | .restart id => replied (a.restart id now) .run
  | .stop id => replied (a.stop id now) .run
  | .runState id => replied (a.runState id now, a) .run
  | .mark id name => replied (a.mark id name now) .lap
  | .reset id => replied (a.reset id now) .timer
  | .renameLog id log name => replied (a.renameLog id log name) .timer
  | .deleteLog id log => replied (a.deleteLog id log) .timer
  | .persist => replied a.persist fun _ => .done

end App

end StepTimer
