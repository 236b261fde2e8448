/-
The application: the registry of timers with the table of their runs, the store they are kept in, and
the last action. A request that is refused gives its reason and changes nothing; one that changes
the registry is stored after it has taken effect, so that it stands also when storing fails.
-/
import StepTimer.Run.Runner
import StepTimer.Store.Folder
import StepTimer.Timer.Name
import StepTimer.Tree.Edit
import StepTimer.Time.Calendar

namespace StepTimer

/-- Why a request is refused. -/
inductive AppError where
  | timerNotFound (id : TimerId)
  | stepNotFound (id : StepId)
  | logNotFound (id : String)
  | locked (id : TimerId)
  | notRunning (id : TimerId)
  | notStopwatch (id : TimerId)
  | invalidName
  | invalidPlacement
  | storage (error : StoreError)
deriving DecidableEq, Repr

/-- The text of a refusal; that of the store names no file. -/
def AppError.message : AppError → String
  | timerNotFound id => "timer " ++ id ++ " not found"
  | stepNotFound id => "step " ++ id ++ " not found"
  | logNotFound id => "log entry " ++ id ++ " not found"
  | locked id => "timer " ++ id ++ " is locked"
  | notRunning id => "stopwatch " ++ id ++ " is not running"
  | notStopwatch id => "timer " ++ id ++ " is not a stopwatch"
  | invalidName => "timer names cannot be blank"
  | invalidPlacement => "a step cannot be placed there"
  | storage .access => "failed to access the timers file"
  | storage .format => "malformed timers file"

/-- The application. -/
structure App where
  port : UInt16 := 20554
  host : String := "127.0.0.1"
  ids : IdSource
  timers : List Timer
  runner : Runner
  /-- The folder of the timers file; without one nothing is stored. -/
  store : Option Folder := none
  /-- The last action and the time of it. -/
  lastAction : Option (String × WallTime) := none
  startedAt : Instant := ⟨0⟩

/-- What a request gives: a result or a refusal, and the application after it. -/
abbrev App.Outcome (α : Type) := Except AppError α × App

namespace App

/-! ## The registry -/

def timer? (a : App) (id : TimerId) : Option Timer := a.timers.find? fun t => t.id = id

/-- The timer of a name, or the refusal. -/
def getTimer (a : App) (id : TimerId) : Except AppError Timer :=
  match a.timer? id with
  | some t => .ok t
  | none => .error (.timerNotFound id)

/-- The list with the first timer of a name changed. -/
def modifyFirst (id : TimerId) (f : Timer → Timer) : List Timer → List Timer
  | [] => []
  | t :: rest => if t.id = id then f t :: rest else t :: modifyFirst id f rest

def modifyTimer (a : App) (id : TimerId) (f : Timer → Timer) : App :=
  { a with timers := modifyFirst id f a.timers }

/-- Puts a timer into the place of the one of its name. -/
def setTimer (a : App) (t : Timer) : App := a.modifyTimer t.id fun _ => t

/-- Takes the timers of a name out of the registry. -/
def removeTimer (a : App) (id : TimerId) : App :=
  { a with timers := a.timers.filter fun t => t.id ≠ id }

def record (a : App) (action : String) (now : Instant) : App :=
  { a with lastAction := some (action, a.runner.equipment.wall now) }

/-! ## Storing -/

/-- Stores all timers, if there is a store. -/
def persist (a : App) : Outcome Unit :=
  match a.store with
  | none => (.ok (), a)
  | some folder =>
    let (result, folder) := folder.save a.timers
    (result.mapError .storage, { a with store := some folder })

def stored {α : Type} (a : App) (result : α) : Outcome α :=
  let (saved, a) := a.persist
  (saved.map fun _ => result, a)

/-! ## Timers -/

/-- Makes an empty timer. A name that is taken gets a number. -/
def createTimer (a : App) (name : String) (mode : TimerMode) (now : Instant) : Outcome Timer :=
  match TimerName.unique? name (a.timers.map (·.name)) with
  | none => (.error .invalidName, a)
  | some name =>
    let (id, ids) := a.ids.next
    let t : Timer := { id := id, name := name, mode := mode }
    ({ a with ids := ids, timers := a.timers ++ [t] }.record "create" now).stored t

/-- The timer with a new name, if one is given, that is free beside the other timers. -/
def renamed? (a : App) (t : Timer) : Option String → Option Timer
  | none => some t
  | some name =>
    let others := (a.timers.filter fun u => u.id ≠ t.id).map (·.name)
    (TimerName.unique? name others).map fun name => { t with name := name }

def updateTimer (a : App) (id : TimerId) (name : Option String) (locked : Option Bool)
    (now : Instant) : Outcome Timer :=
  match a.timer? id with
  | none => (.error (.timerNotFound id), a)
  | some t =>
    match a.renamed? t name with
    | none => (.error .invalidName, a)
    | some t =>
      let t := locked.elim t t.setLocked
      ((a.setTimer t).record "update" now).stored t

/-- Deletes a timer; its run is stopped. -/
def deleteTimer (a : App) (id : TimerId) (now : Instant) : Outcome Unit :=
  match a.timer? id with
  | none => (.error (.timerNotFound id), a)
  | some _ =>
    let a := a.removeTimer id
    ({ a with runner := a.runner.forget id now }.record "delete" now).stored ()

/-- The time since the application was started, as text. -/
def uptime (a : App) (now : Instant) : String :=
  renderUptime (now.millisSince a.startedAt / 1000)

end App

end StepTimer
