/-
What a timer is doing, as it is told to the outside: a snapshot of its run, and the updates that
announce each change of it.
-/
import StepTimer.Timer.Codec
import StepTimer.Time.Display

namespace StepTimer

/-- Where a timer is in its run. -/
inductive RunStatus where
  | idle | running | paused
deriving DecidableEq, Repr, Inhabited

/-- How the last run of a timer ended. -/
inductive RunOutcome where
  | completed | aborted
deriving DecidableEq, Repr, Inhabited

/-- A snapshot of a timer's run. -/
structure RunState where
  status : RunStatus := .idle
  activeStepId : Option StepId := none
  /-- The time left on the active step, if it counts down. -/
  remainingMs : Option UInt64 := none
  /-- The time on the stopwatch. -/
  elapsedMs : UInt64 := 0
  lastOutcome : Option RunOutcome := none
deriving DecidableEq, Repr, Inhabited

namespace RunState

def idle : RunState := {}

/-- Whether the timer runs; a paused one does not. -/
def isRunning (s : RunState) : Bool := s.status = .running

/-- Whether the timer is paused in the middle of its run. -/
def isPaused (s : RunState) : Bool := s.status = .paused

/-- The text of the time left on the active step. -/
def remainingDisplay (s : RunState) : Option String := s.remainingMs.map renderDuration

end RunState

/-- An announcement of one timer's run. -/
structure RunUpdate where
  timerId : TimerId
  state : RunState
  /-- The timer was dropped, and nothing more is announced of it. -/
  forgotten : Bool
deriving DecidableEq, Repr

/-- The announcement of a new state. -/
def RunUpdate.new (timer : TimerId) (state : RunState) : RunUpdate := ⟨timer, state, false⟩

/-- The announcement that a timer was dropped. -/
def RunUpdate.dropped (timer : TimerId) : RunUpdate := { RunUpdate.new timer .idle with forgotten := true }

/-! ## As values of the data format -/

/-- The written names of the states of a run. -/
def RunStatus.names : List (String × RunStatus) :=
  [("idle", .idle), ("running", .running), ("paused", .paused)]

/-- The written name of a state of a run. -/
def RunStatus.name : RunStatus → String
  | idle => "idle"
  | running => "running"
  | paused => "paused"

def RunOutcome.names : List (String × RunOutcome) :=
  [("completed", .completed), ("aborted", .aborted)]

def RunOutcome.name : RunOutcome → String
  | completed => "completed"
  | aborted => "aborted"

theorem RunStatus.lookup_name (s : RunStatus) : names.lookup s.name = some s := by
  cases s <;> decide

theorem RunOutcome.lookup_name (o : RunOutcome) : names.lookup o.name = some o := by
  cases o <;> decide

namespace RunState

/-- The names of the fields of a snapshot. -/
def fieldNames : List String := ["status", "activeStepId", "remainingMs", "elapsedMs", "lastOutcome"]

/-- The value of a snapshot; what it has not is null. -/
def toJson (s : RunState) : Json :=
  .object [("status", .string s.status.name),
    ("activeStepId", .ofOption .string s.activeStepId),
    ("remainingMs", .ofOption (fun ms : UInt64 => .nat ms.toNat) s.remainingMs),
    ("elapsedMs", .nat s.elapsedMs.toNat),
    ("lastOutcome", .ofOption (fun o : RunOutcome => .string o.name) s.lastOutcome)]

def ofJson? (j : Json) : Option RunState := do
  match ← j.fields? fieldNames with
  | [status, active, remaining, elapsed, outcome] =>
    let status ← status.required (Json.oneOf? RunStatus.names .strict)
    let active ← active.nullable Json.asString?
    let remaining ← remaining.nullable Json.asUInt64?
    let elapsed ← elapsed.required Json.asUInt64?
    let outcome ← outcome.nullable (Json.oneOf? RunOutcome.names .strict)
    return ⟨status, active, remaining, elapsed, outcome⟩
  | _ => none

/-- The form in which a snapshot is read from a text. -/
def shape : Json.Draft.Shape := .record (fieldNames.map fun name => (name, .value))

end RunState

end StepTimer
