/-
The table of runs. Timers are started, paused, resumed, restarted, stopped and forgotten here; the
runs of all timers share the audio channel and the notifications. Every change of an entry is
announced. A run that was aborted changes no entry any more, whatever it still reports.
-/
import StepTimer.Run.Entry
import StepTimer.Tree.Fresh
import StepTimer.Engine.Advance

namespace StepTimer

/-- A run under way, for a timer and in a generation of its entry. -/
structure Run where
  id : RunId
  timer : TimerId
  generation : Nat
  signals : Signals := {}
  activity : Activity

/-- The table of runs. -/
structure Runner where
  equipment : Equipment
  entries : List (TimerId × RunEntry) := []
  /-- The runs that have not come to their end, the oldest first. -/
  runs : List Run := []
  nextRun : RunId := 1
  devices : Devices := {}
  /-- What was announced and when, the newest first. -/
  announced : List (Nat × RunUpdate) := []

namespace Runner

/-! ## Entries -/

def entry? (r : Runner) (id : TimerId) : Option RunEntry := r.entries.lookup id

def setEntry (r : Runner) (id : TimerId) (e : RunEntry) : Runner :=
  { r with entries :=
      if (r.entry? id).isSome then
        r.entries.map fun p => if p.1 = id then (id, e) else p
      else r.entries ++ [(id, e)] }

def dropEntry (r : Runner) (id : TimerId) : Runner :=
  { r with entries := r.entries.filter fun p => p.1 ≠ id }

def announce (r : Runner) (now : Instant) (u : RunUpdate) : Runner :=
  { r with announced := (now.millis, u) :: r.announced }

/-- Changes the entry of a timer, if it has one, and announces the new state. -/
def update (r : Runner) (id : TimerId) (now : Instant) (f : RunEntry → RunEntry) : Runner :=
  match r.entry? id with
  | none => r
  | some e => (r.setEntry id (f e)).announce now (.new id ((f e).snapshot now))

/-- Changes the entry of a timer, making one if it has none, and announces the new state. -/
def upsert (r : Runner) (id : TimerId) (now : Instant) (f : RunEntry → RunEntry) : Runner :=
  let e := f ((r.entry? id).getD {})
  (r.setEntry id e).announce now (.new id (e.snapshot now))

/-- The state of a timer; one without an entry is idle. -/
def snapshot (r : Runner) (id : TimerId) (now : Instant) : RunState :=
  ((r.entry? id).map fun e => e.snapshot now).getD .idle

/-! ## Runs -/

def run? (r : Runner) (run : RunId) : Option Run := r.runs.find? fun x => x.id = run

def modifyRun (r : Runner) (run : RunId) (f : Run → Run) : Runner :=
  { r with runs := r.runs.map fun x => if x.id = run then f x else x }

def signal (r : Runner) (run : RunId) (f : Signals → Signals) : Runner :=
  r.modifyRun run fun x => { x with signals := f x.signals }

/-- Changes the signals of a run, if there is one. -/
def signalAny (r : Runner) (run : Option RunId) (f : Signals → Signals) : Runner :=
  run.elim r fun run => r.signal run f

def silence (r : Runner) (run : RunId) : Runner :=
  { r with devices := { r.devices with channel := r.devices.channel.stopOwnedBy run } }

/-- Silences the sound of a run, if there is one. -/
def silenceAny (r : Runner) (run : Option RunId) : Runner := run.elim r r.silence

/-! ## Control -/

/-- Lets a paused run go on where it was. -/
def resume (r : Runner) (id : TimerId) (now : Instant) : Runner :=
  let run := (r.entry? id).bind (·.resumable)
  (r.signalAny run fun s => { s with paused := false }).update id now RunEntry.resumed

/-- Pauses a run in place and silences its sound; a stopwatch stands still. -/
def pause (r : Runner) (t : Timer) (now : Instant) : Runner :=
  if t.mode = .stopwatch then r.update t.id now fun e => e.pauseWatch now
  else
    let run := (r.entry? t.id).bind (·.pausable)
    ((r.signalAny run fun s => { s with paused := true }).update t.id now
      RunEntry.paused).silenceAny run

/-- Aborts the run of a timer and silences its sound. -/
def stop (r : Runner) (id : TimerId) (now : Instant) : Runner :=
  let run := (r.entry? id).bind (·.token)
  ((r.signalAny run fun s => { s with aborted := true }).update id now
    fun e => e.stopped now).silenceAny run

/-- Begins a new run of a timer; a run it is still in is aborted. -/
def beginRun (r : Runner) (t : Timer) (now : Instant) : Runner :=
  let old := (r.entry? t.id).bind (·.token)
  let run := r.nextRun
  let r := (r.signalAny old fun s => { s with aborted := true }).upsert t.id now
    fun e => e.begun run (t.steps.head?.map Step.id)
  let generation := ((r.entry? t.id).map (·.generation)).getD 0
  { r with
    nextRun := run + 1
    runs := r.runs ++ [⟨run, t.id, generation, {}, .ready t.steps⟩] }

/-- Starts a timer, or lets it go on when it is paused. One that runs is left alone. -/
def start (r : Runner) (t : Timer) (now : Instant) : Runner :=
  if t.mode = .stopwatch then r.upsert t.id now fun e => e.startWatch now
  else
    match r.entry? t.id with
    | none => r.beginRun t now
    | some e =>
      if e.resumable.isSome then r.resume t.id now
      else if e.status = .running then r
      else r.beginRun t now

/-- Starts a timer again from its first step, or a stopwatch from zero. -/
def restart (r : Runner) (t : Timer) (now : Instant) : Runner :=
  if t.mode = .stopwatch then r.upsert t.id now fun e => e.restartWatch now
  else (r.stop t.id now).beginRun t now

/-- Stops a timer and sets its stopwatch to zero. -/
def reset (r : Runner) (id : TimerId) (now : Instant) : Runner :=
  (r.stop id now).update id now RunEntry.resetWatch

/-- Drops the entry of a timer and announces that. -/
def drop (r : Runner) (id : TimerId) (now : Instant) : Runner :=
  if (r.entry? id).isSome then (r.dropEntry id).announce now (.dropped id) else r

/-- Stops a timer and drops all that is known of it. -/
def forget (r : Runner) (id : TimerId) (now : Instant) : Runner := (r.stop id now).drop id now

def stopAll (r : Runner) (now : Instant) : Runner :=
  let r := (r.entries.map (·.1)).foldl (fun r id => r.stop id now) r
  { r with devices := { r.devices with channel := r.devices.channel.stop } }

/-- The lap of a running stopwatch; none when it does not run. -/
def mark (source : IdSource) (r : Runner) (id : TimerId) (name : String) (now : Instant) :
    Option LogEntry × IdSource :=
  match r.entry? id with
  | none => (none, source)
  | some e =>
    if e.stopwatch.isRunning then
      let (fresh, source) := source.next
      let loggedAt := Int64.ofInt (r.equipment.wall now).millis
      (some ⟨fresh, name, e.stopwatch.elapsedMs now, loggedAt⟩, source)
    else (none, source)

/-! ## The runs go on -/

/-- A report of a run; that of an aborted one is dropped. -/
def report (r : Runner) (x : Run) (now : Instant) (step : StepId) (remaining : Option UInt64) :
    Runner :=
  if x.signals.aborted then r
  else r.update x.timer now fun e => e.reported x.generation step remaining

/-- What follows from an event of a run. -/
def observe (r : Runner) (x : Run) (now : Instant) : Event → Runner
  | .progress step remaining => r.report x now step remaining
  | _ => r

/-- The end of a run: it leaves the table, and its entry if it was not aborted. -/
def finish (r : Runner) (x : Run) (now : Instant) : Runner :=
  let r := { r with runs := r.runs.filter fun y => y.id ≠ x.id }
  if x.signals.aborted then r else r.update x.timer now fun e => e.finished x.generation

def circumstances (r : Runner) (x : Run) (now : Instant) (coin : Bool) : Circumstances :=
  ⟨r.equipment, x.id, now, x.signals, coin⟩

def apply (r : Runner) (x : Run) (now : Instant) (m : Move) : Runner :=
  let r := r.modifyRun x.id fun y => { y with activity := m.next }
  m.events.foldl (fun r e => r.observe x now e) { r with devices := m.devices }

/-- The next move of a run, with what is seen of it; none while it waits. -/
def advance (r : Runner) (run : RunId) (coin : Bool) (now : Instant) :
    Option (Runner × List Event) := do
  let x ← r.run? run
  if x.activity.isDone then some (r.finish x now, [])
  else
    let m ← x.activity.advance (r.circumstances x now coin) r.devices
    some (r.apply x now m, m.events)

def canAdvance (r : Runner) (run : RunId) (now : Instant) : Bool :=
  (r.advance run true now).isSome

/-- The turn of a run comes: loops that let others go first go on. -/
def wake (r : Runner) (run : RunId) : Runner :=
  r.modifyRun run fun x => { x with activity := x.activity.wake }

def dismissAll (r : Runner) : Runner :=
  { r with devices := { r.devices with board := r.devices.board.dismissAll } }

end Runner

end StepTimer
