/-
Running the timers, and the laps of the stopwatches.
-/
import StepTimer.App.Basic

namespace StepTimer.App

/-- Does something with the run of a timer that is registered, and notes the action. -/
def control (a : App) (id : TimerId) (action : String) (now : Instant)
    (act : Runner → Timer → Runner) : Outcome RunState :=
  match a.timer? id with
  | none => (.error (.timerNotFound id), a)
  | some t =>
    let runner := act a.runner t
    (.ok (runner.snapshot id now), { a with runner := runner }.record action now)

/-- Starts a timer, or lets it go on when it is paused. -/
def start (a : App) (id : TimerId) (now : Instant) : Outcome RunState :=
  a.control id "start" now fun r t => r.start t now

def pause (a : App) (id : TimerId) (now : Instant) : Outcome RunState :=
  a.control id "pause" now fun r t => r.pause t now

/-- Starts a timer again from its first step, or a stopwatch from zero. -/
def restart (a : App) (id : TimerId) (now : Instant) : Outcome RunState :=
  a.control id "restart" now fun r t => r.restart t now

def stop (a : App) (id : TimerId) (now : Instant) : Outcome RunState :=
  a.control id "stop" now fun r _ => r.stop id now

def runState (a : App) (id : TimerId) (now : Instant) : Except AppError RunState :=
  (a.getTimer id).map fun _ => a.runner.snapshot id now

/-- The name of a lap: the trimmed one that is asked for, or else its number. -/
def lapName (count : Nat) (name : Option String) : String :=
  ((name.map Text.trim).filter fun n => n ≠ "").getD ("Lap " ++ (count + 1).repr)

def mark (a : App) (id : TimerId) (name : Option String) (now : Instant) : Outcome LogEntry :=
  match a.timer? id with
  | none => (.error (.timerNotFound id), a)
  | some t =>
    match a.runner.mark a.ids id (lapName t.logs.length name) now with
    | (none, _) => (.error (.notRunning id), a)
    | (some lap, ids) =>
      (({ a with ids := ids }.setTimer { t with logs := t.logs ++ [lap] }).record "mark" now).stored
        lap

/-- Sets a stopwatch to zero and drops its laps. -/
def reset (a : App) (id : TimerId) (now : Instant) : Outcome Timer :=
  match a.timer? id with
  | none => (.error (.timerNotFound id), a)
  | some t =>
    if t.mode ≠ .stopwatch then (.error (.notStopwatch t.id), a)
    else
      let t := { t with logs := [] }
      let a := a.setTimer t
      ({ a with runner := a.runner.reset id now }.record "reset" now).stored t

/-- Changes the laps of a timer that has the one of a name. -/
def editLogs (a : App) (id : TimerId) (log : String) (edit : Timer → Timer) : Outcome Timer :=
  match a.timer? id with
  | none => (.error (.timerNotFound id), a)
  | some t =>
    if t.hasLog log then (a.setTimer (edit t)).stored (edit t)
    else (.error (.logNotFound log), a)

/-- Renames a lap; a blank name is refused. -/
def renameLog (a : App) (id : TimerId) (log name : String) : Outcome Timer :=
  let name := Text.trim name
  if name = "" then (.error .invalidName, a)
  else a.editLogs id log fun t => t.renameLog log name

def deleteLog (a : App) (id : TimerId) (log : String) : Outcome Timer :=
  a.editLogs id log fun t => t.deleteLog log

end StepTimer.App
