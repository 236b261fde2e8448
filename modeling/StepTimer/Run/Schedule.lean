/-
The turns of the runs on a virtual clock. Runs take turns in the order in which they became able to
go on, each until it waits; a run that lets others go first comes after all that can go on. The
clock stands still while a run can go on, and then jumps straight to the next alarm. Of several
alarms at one instant the one that was set first goes first.
-/
import StepTimer.Run.Runner

namespace StepTimer

/-- An alarm of a run, with its place in the order of setting. -/
structure Alarm where
  run : RunId
  due : Instant
  serial : Nat
deriving DecidableEq, Repr

/-- Whose turn it is, and what was seen of the runs. -/
structure Schedule where
  now : Instant := ⟨0⟩
  /-- The runs whose turn comes, in order. -/
  queue : List RunId := []
  /-- The runs that let others go first, the last one in front. -/
  deferred : List RunId := []
  alarms : List Alarm := []
  nextSerial : Nat := 0
  /-- What was seen and when, the newest first. -/
  trace : List (Nat × Event) := []
deriving Repr

namespace Schedule

/-- Whether a run waits for its turn. -/
def isQueued (s : Schedule) (run : RunId) : Bool := run ∈ s.queue || run ∈ s.deferred

/-- Queues the runs that have become able to go on. Those that a dismissal lets go on come in the
order in which their notifications were shown. -/
def notice (s : Schedule) (r : Runner) : Schedule :=
  let ready := r.runs.filter fun x => !s.isQueued x.id && r.canAdvance x.id s.now
  let ranked := ready.mergeSort fun a b => a.activity.notice?.getD 0 ≤ b.activity.notice?.getD 0
  { s with queue := s.queue ++ ranked.map (·.id) }

/-- Lets a run go on until it waits, for at most so many moves. -/
def runOn : Nat → RunId → Schedule × Runner → Schedule × Runner
  | 0, _, w => w
  | fuel + 1, run, (s, r) =>
    match r.advance run true s.now with
    | none => (s, r)
    | some (r, events) =>
      let seen := events.map fun e => (s.now.millis, e)
      runOn fuel run ({ s with trace := seen.reverse ++ s.trace }, r)

/-- The alarms after a run had its turn: those it still has keep their place, the new ones follow. -/
def setAlarms (s : Schedule) (run : RunId) (due : List Instant) : Schedule :=
  let kept := s.alarms.filter fun a => a.run ≠ run || a.due ∈ due
  let fresh := due.filter fun t => !(s.alarms.any fun a => a.run = run && a.due = t)
  let added := fresh.mapIdx fun i t => ⟨run, t, s.nextSerial + i⟩
  { s with alarms := kept ++ added, nextSerial := s.nextSerial + fresh.length }

/-- The most moves in one turn. -/
def moveLimit : Nat := 10000000

/-- The most turns at one instant. -/
def turnLimit : Nat := 10000000

/-- The most instants on the way to another. -/
def alarmLimit : Nat := 10000000

def turn (run : RunId) (s : Schedule) (r : Runner) : Schedule × Runner :=
  let (s, r) := runOn moveLimit run (s, r.wake run)
  let (due, yielded) := match r.run? run with
    | some x => (x.activity.alarms, x.activity.hasYielded)
    | none => ([], false)
  let s := s.setAlarms run due
  let s := if yielded then { s with deferred := run :: s.deferred } else s
  (s.notice r, r)

/-- Gives turns until every run waits, at most so many. -/
def settle : Nat → Schedule × Runner → Schedule × Runner
  | 0, w => w
  | fuel + 1, (s, r) =>
    match s.queue with
    | run :: rest => settle fuel (turn run { s with queue := rest } r)
    | [] =>
      match s.deferred with
      | [] => (s, r)
      | runs => settle fuel ({ s with queue := runs, deferred := [] }, r)

/-- The earlier of two instants, the second of which may be missing. -/
def earlier (t : Instant) : Option Instant → Option Instant
  | none => some t
  | some u => if u.nanos < t.nanos then some u else some t

def nextDue (s : Schedule) : Option Instant :=
  s.alarms.foldr (fun a best => earlier a.due best) none

/-- The runs with an alarm at an instant or before, in the order in which the alarms were set. -/
def dueRuns (s : Schedule) (t : Instant) : List RunId :=
  let due := s.alarms.filter fun a => a.due.nanos ≤ t.nanos
  ((due.mergeSort fun a b => a.due.nanos < b.due.nanos ∨
    (a.due.nanos = b.due.nanos ∧ a.serial ≤ b.serial)).map (·.run)).eraseDups

/-- Jumps to an instant: the alarms that are due then go off. -/
def jump (s : Schedule) (t : Instant) : Schedule :=
  { s with
    now := t
    queue := s.queue ++ (s.dueRuns t).filter fun run => !s.isQueued run
    alarms := s.alarms.filter fun a => !(a.due.nanos ≤ t.nanos) }

/-- Lets time pass up to an instant, for at most so many alarms. -/
def passTime : Nat → Instant → Schedule × Runner → Schedule × Runner
  | 0, _, w => w
  | fuel + 1, target, (s, r) =>
    match s.nextDue with
    | some t =>
      if t.nanos ≤ target.nanos then passTime fuel target (settle turnLimit (s.jump t, r))
      else ({ s with now := target }, r)
    | none => ({ s with now := target }, r)

/-- Lets a number of milliseconds pass, with all that happens in them. -/
def elapse (s : Schedule) (r : Runner) (ms : Nat) : Schedule × Runner :=
  passTime alarmLimit (s.now.plusMillis ms) (settle turnLimit (s, r))

end Schedule

end StepTimer
