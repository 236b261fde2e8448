/-
Timers and laps as values of the data format. A timer without laps is written without them.
-/
import StepTimer.Timer.Basic
import StepTimer.Step.Codec
import StepTimer.Json.Draft

namespace StepTimer

/-! ## Modes -/

def TimerMode.names : List (String × TimerMode) :=
  [("alarm", .alarm), ("sequence", .sequence), ("stopwatch", .stopwatch)]

def TimerMode.name : TimerMode → String
  | alarm => "alarm"
  | sequence => "sequence"
  | stopwatch => "stopwatch"

def TimerMode.ofJson? (j : Json) : Option TimerMode := Json.oneOf? names .strict j

theorem TimerMode.lookup_name (m : TimerMode) : names.lookup m.name = some m := by
  cases m <;> decide

/-! ## Laps -/

/-- The names of the fields of a lap. -/
def LogEntry.fieldNames : List String := ["id", "name", "elapsedMs", "loggedAtEpochMs"]

def LogEntry.toJson (l : LogEntry) : Json :=
  .object [("id", .string l.id), ("name", .string l.name), ("elapsedMs", .nat l.elapsedMs.toNat),
    ("loggedAtEpochMs", .int l.loggedAtEpochMs.toInt)]

def LogEntry.ofJson? (j : Json) : Option LogEntry := do
  match ← j.fields? fieldNames with
  | [id, name, elapsed, loggedAt] =>
    let id ← id.required Json.asString?
    let name ← name.required Json.asString?
    let elapsed ← elapsed.required Json.asUInt64?
    let loggedAt ← loggedAt.required Json.asInt64?
    return ⟨id, name, elapsed, loggedAt⟩
  | _ => none

/-- The form in which a lap is read from a text. -/
def LogEntry.shape : Json.Draft.Shape :=
  .record (fieldNames.map fun name => (name, .value))

/-! ## Timers -/

/-- The names of the fields of a timer. -/
def Timer.fieldNames : List String := ["id", "name", "steps", "mode", "locked", "logs"]

def Timer.members (t : Timer) : List (String × Json) :=
  [("id", .string t.id), ("name", .string t.name), ("steps", .array (Step.listToJson t.steps)),
    ("mode", .string t.mode.name), ("locked", .bool t.locked)]
    ++ if t.logs.isEmpty then [] else [("logs", .array (t.logs.map LogEntry.toJson))]

def Timer.toJson (t : Timer) : Json := .object t.members

def Timer.ofJson? (j : Json) : Option Timer := do
  match ← j.fields? fieldNames with
  | [id, name, steps, mode, locked, logs] =>
    let id ← id.required Json.asString?
    let name ← name.required Json.asString?
    let steps ← steps.orDefault [] Step.itemsOf?
    let mode ← mode.orDefault .sequence TimerMode.ofJson?
    let locked ← locked.orDefault false Json.asBool?
    let logs ← logs.orDefault [] (Json.listOf? LogEntry.ofJson?)
    return ⟨id, name, steps, mode, locked, logs⟩
  | _ => none

/-- The form in which a timer is read from a text. -/
def Timer.shape : Json.Draft.Shape :=
  .record [("id", .value), ("name", .value), ("steps", .value), ("mode", .value),
    ("locked", .value), ("logs", .list LogEntry.shape)]

def Timer.listOfJson? : Json → Option (List Timer) := Json.listOf? Timer.ofJson?

def Timer.listToJson (timers : List Timer) : Json := .array (timers.map Timer.toJson)

end StepTimer
