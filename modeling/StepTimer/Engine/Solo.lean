/-
A run on its own. It is taken through a script of controls on a virtual clock: the clock stands
still while the run can go on, and otherwise jumps straight to the next instant at which time lets
it. What is seen of the run is kept with the time it was seen at.
-/
import StepTimer.Engine.Advance

namespace StepTimer

/-- A control of a run, or of the channel it plays on. -/
inductive Control where
  | pause | resume | abort
  /-- Dismisses every notification shown so far. -/
  | dismiss
  /-- Silences the sound of the run, any sound, or the sound of another run. -/
  | silenceOwn | silenceAny | silenceOther
deriving DecidableEq, Repr

/-- Something seen of a run: an event, or a control and whether a sound was playing before it. -/
inductive Sighting where
  | event (event : Event)
  | control (control : Control) (audible : Bool)
deriving DecidableEq, Repr

/-- A run on its own. -/
structure Solo where
  equipment : Equipment
  activity : Activity
  signals : Signals := {}
  devices : Devices := {}
  now : Instant := ⟨0⟩
  /-- What was seen so far and when, the newest first. -/
  trace : List (Nat × Sighting) := []
  /-- When the run ended. -/
  ended : Option Nat := none

namespace Solo

def owner : RunId := 1

/-- The name that stands for all other runs. -/
def otherOwner : RunId := 0

/-- A run of a list of steps that has not begun. -/
def ofSteps (equipment : Equipment) (steps : List Step) : Solo :=
  ⟨equipment, .ready steps, {}, {}, ⟨0⟩, [], none⟩

def circumstances (s : Solo) : Circumstances := ⟨s.equipment, owner, s.now, s.signals, true⟩

def apply (s : Solo) (m : Move) : Solo :=
  let seen := m.events.map fun e => (s.now.millis, Sighting.event e)
  { s with
    activity := m.next
    devices := m.devices
    trace := seen.reverse ++ s.trace
    ended := if m.next.isDone then some s.now.millis else s.ended }

def settle : Nat → Solo → Solo
  | 0, s => s
  | fuel + 1, s =>
    match s.activity.advance s.circumstances s.devices with
    | some m => settle fuel (s.apply m)
    | none => if s.activity.hasYielded then settle fuel { s with activity := s.activity.wake } else s

/-- The first instant after now at which time lets the run go on. -/
def nextAlarm (s : Solo) : Option Instant :=
  (s.activity.alarms.filter fun t => s.now.nanos < t.nanos).foldl (fun best t =>
    match best with
    | none => some t
    | some b => if t.nanos < b.nanos then some t else some b) none

/-- The most moves between two instants. -/
def moveLimit : Nat := 10000000

/-- The most instants on the way to another. -/
def alarmLimit : Nat := 10000000

/-- Lets time pass up to an instant, for at most so many alarms. -/
def passTime : Nat → Instant → Solo → Solo
  | 0, _, s => s
  | fuel + 1, target, s =>
    match s.nextAlarm with
    | some t =>
      if t.nanos ≤ target.nanos then passTime fuel target (settle moveLimit { s with now := t })
      else { s with now := target }
    | none => { s with now := target }

/-- Lets the run do all it can up to a time in milliseconds. -/
def runUntil (s : Solo) (ms : Nat) : Solo :=
  passTime alarmLimit (.ofMillis (max ms s.now.millis)) (settle moveLimit s)

def control (s : Solo) : Control → Solo
  | .pause => { s with signals := { s.signals with paused := true } }
  | .resume => { s with signals := { s.signals with paused := false } }
  | .abort => { s with signals := { s.signals with aborted := true } }
  | .dismiss => { s with devices := { s.devices with board := s.devices.board.dismissAll } }
  | .silenceOwn =>
    { s with devices := { s.devices with channel := s.devices.channel.stopOwnedBy owner } }
  | .silenceAny => { s with devices := { s.devices with channel := s.devices.channel.stop } }
  | .silenceOther =>
    { s with devices := { s.devices with channel := s.devices.channel.stopOwnedBy otherOwner } }

/-- Applies a control of the script, which is seen. -/
def scripted (s : Solo) (c : Control) : Solo :=
  let seen := (s.now.millis, Sighting.control c s.devices.channel.isPlaying)
  { s.control c with trace := seen :: s.trace }

/-- Takes a run through a script: controls before it begins, controls at given times, and a time to
stop at. -/
def perform (s : Solo) (before : List Control) (script : List (Nat × Control)) (stopAt : Nat) :
    Solo :=
  let s := before.foldl control s
  let s := script.foldl (fun s (ms, c) => (s.runUntil ms).scripted c) s
  s.runUntil stopAt

end Solo

end StepTimer
