/-
Histories of the table of runs. Calls come in any order, at any time and for any timers; between
them the runs make their moves, one at a time and in any order. A poll of a run is a number of its
moves in a row, so that what holds between all moves holds between all polls.
-/
import StepTimer.Proofs.Run.Table
import Mathlib.Logic.Relation

namespace StepTimer

/-- What can be asked of the table of runs. -/
inductive Runner.Op where
  | start (t : Timer)
  | resume (id : TimerId)
  | pause (t : Timer)
  | restart (t : Timer)
  | stop (id : TimerId)
  | reset (id : TimerId)
  | mark (id : TimerId) (name : String)
  | forget (id : TimerId)
  | stopAll

namespace Runner

/-- The table after a call. A lap is only read off: it leaves the table as it is. -/
def perform (r : Runner) (now : Instant) : Op → Runner
  | .start t => r.start t now
  | .resume id => r.resume id now
  | .pause t => r.pause t now
  | .restart t => r.restart t now
  | .stop id => r.stop id now
  | .reset id => r.reset id now
  | .mark _ _ => r
  | .forget id => r.forget id now
  | .stopAll => r.stopAll now

/-- The timer that a call is given as a whole. -/
def Op.timer? : Op → Option Timer
  | .start t => some t
  | .pause t => some t
  | .restart t => some t
  | _ => none

/-- The timer of which a call may begin a run. -/
def Op.starts? : Op → Option TimerId
  | .start t => some t.id
  | .restart t => some t.id
  | _ => none

/-- The table when some notifications, one or all of them, have been dismissed. -/
def dismissed (r : Runner) (notices : List Nat) : Runner :=
  { r with devices := { r.devices with board := { r.devices.board with dismissed := notices } } }

theorem dismissAll_eq (r : Runner) : r.dismissAll = r.dismissed (List.range r.devices.board.shown) := rfl

end Runner

/-- The table of runs at an instant, with the timer that each run was begun with. -/
structure World where
  runner : Runner
  now : Instant
  begun : List (RunId × Timer) := []

namespace World

open Runner (Op)

/-- An empty table. -/
def initial (equipment : Equipment) (now : Instant) : World := ⟨{ equipment }, now, []⟩

/-- The world after a call. The call has begun a run if it has used up a name. -/
def perform (w : World) (op : Op) : World :=
  let r := w.runner.perform w.now op
  { w with
    runner := r
    begun := ((op.timer?.filter fun _ => w.runner.nextRun < r.nextRun).map fun t =>
      (w.runner.nextRun, t)).toList ++ w.begun }

/-- One step of a history whose calls are all of a kind. -/
inductive Step (ok : Op → Prop) : World → World → Prop
  | call {w : World} (op : Op) (h : ok op) : Step ok w (w.perform op)
  | move {w : World} (run : RunId) (coin : Bool) {r : Runner} {events : List Event}
      (h : w.runner.advance run coin w.now = some (r, events)) : Step ok w { w with runner := r }
  | wake {w : World} (run : RunId) : Step ok w { w with runner := w.runner.wake run }
  | dismiss {w : World} (notices : List Nat) : Step ok w { w with runner := w.runner.dismissed notices }
  | pass {w : World} (t : Instant) (h : w.now.nanos ≤ t.nanos) : Step ok w { w with now := t }

/-- A world that a history leads to from another one. -/
abbrev Later (ok : Op → Prop) : World → World → Prop := Relation.ReflTransGen (Step ok)

/-- A world that a history leads to from an empty table. -/
def Reached (ok : Op → Prop) (w : World) : Prop :=
  ∃ equipment now, Later ok (initial equipment now) w

/-- What holds of every empty table and is kept by every step holds of every world that is reached. -/
theorem Reached.induction {ok : Op → Prop} {P : World → Prop} (hinit : ∀ equipment now, P (initial equipment now))
    (hstep : ∀ w w', P w → Step ok w w' → P w') {w : World} (h : Reached ok w) : P w := by
  obtain ⟨equipment, now, h⟩ := h
  induction h with
  | refl => exact hinit equipment now
  | tail _ hs ih => exact hstep _ _ ih hs

/-! ## Worlds that compute -/

/-- The world after at most so many moves of a run, when the coin always falls on the same side. -/
def goOn (run : RunId) : Nat → World → World
  | 0, w => w
  | n + 1, w => (w.runner.advance run true w.now).elim w fun p => goOn run n { w with runner := p.1 }

theorem later_goOn {ok : Op → Prop} (run : RunId) (n : Nat) (w : World) : Later ok w (w.goOn run n) := by
  induction n generalizing w with
  | zero => exact .refl
  | succ n ih =>
    unfold goOn
    cases hm : w.runner.advance run true w.now with
    | none => exact .refl
    | some p => exact .head (.move run true hm) (ih _)

end World

end StepTimer
