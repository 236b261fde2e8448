/-
The application in time: requests come one after the other, and the runs have their turns when time
passes. They also have them while the timers are being written to their file, for the request waits
for that and the clock does not.
-/
import StepTimer.App.Command
import StepTimer.Run.Schedule

namespace StepTimer

/-- The application with the turns of its runs. -/
structure Service where
  app : App
  schedule : Schedule := {}

namespace Service

def now (s : Service) : Instant := s.schedule.now

/-- Changes the table of runs; runs that can go on then are queued. -/
def act (s : Service) (f : App → App) : Service :=
  let app := f s.app
  ⟨app, s.schedule.notice app.runner⟩

/-- Lets the runs do all they can at this instant. -/
def settle (s : Service) : Service :=
  let (schedule, runner) := Schedule.settle Schedule.turnLimit (s.schedule, s.app.runner)
  ⟨{ s.app with runner := runner }, schedule⟩

def elapse (s : Service) (ms : Nat) : Service :=
  let (schedule, runner) := s.schedule.elapse s.app.runner ms
  ⟨{ s.app with runner := runner }, schedule⟩

/-- Whether a request with this result has got as far as storing the timers. -/
def hasStored {α : Type} : Except AppError α → Bool
  | .ok _ => true
  | .error (.storage _) => true
  | .error _ => false

def perform (s : Service) (c : Command) : Except AppError Reply × Service :=
  let (result, app) := s.app.perform s.now c
  let s := s.act fun _ => app
  if c.stores && app.store.isSome && hasStored result then (result, s.settle) else (result, s)

def dismissAll (s : Service) : Service :=
  s.act fun a => { a with runner := a.runner.dismissAll }

end Service

end StepTimer
