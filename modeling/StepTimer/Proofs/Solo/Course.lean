/-
The course of a run on its own. From outside anything can befall it: its controls come in any order
and at any time, and others use the devices. Between that the run makes its moves, one at a time and
with any coins. The clock moves on by whole milliseconds, only while the run waits, and not past an
alarm of it. Kept beside the run are the time for which it has been awake and what was seen of it.
-/
import StepTimer.Engine.Solo
import StepTimer.Proofs.Engine.Aborted
import Mathlib.Logic.Relation

namespace StepTimer

/-- What is seen of a run: a step that becomes active, or an event. -/
inductive Sight where
  | active (step : Step)
  | event (event : Event)

namespace Sight

/-- Whether a step becomes active or a sound starts. -/
def isStart : Sight → Bool
  | active _ => true
  | event (.play _) => true
  | _ => false

end Sight

/-- Something that was seen of a run, with the milliseconds for which the run had been awake and the
signals it had at that moment. -/
structure Note where
  awake : Nat
  signals : Signals
  sight : Sight

namespace Activity

/-- The step that becomes active by a move from one activity to another. -/
def activated? (a next : Activity) : Option Step := if a.entered?.isSome then none else next.entered?

/-- What is seen of a move of an activity. -/
def sights (a : Activity) (m : Move) : List Sight :=
  (a.activated? m.next).toList.map .active ++ m.events.map .event

theorem activated?_eq_none (a : Activity) {next : Activity} (h : next.entered? = none) : a.activated? next = none := by
  unfold activated?
  rw [h]
  split <;> rfl

/-- A move that makes no step active and plays no sound shows no start. -/
theorem not_isStart_of_sights {a : Activity} {m : Move} (ha : a.activated? m.next = none)
    (hq : ∀ url, .play url ∉ m.events) : ∀ x ∈ a.sights m, x.isStart = false := by
  intro x hx
  simp only [sights, ha, Option.toList, List.map_nil, List.nil_append, List.mem_map] at hx
  obtain ⟨e, he, rfl⟩ := hx
  cases e with
  | play url => exact absurd he (hq url)
  | _ => rfl

end Activity

namespace Solo

/-- The next move of a run when the coin falls on a side; none while it waits. -/
def advance (s : Solo) (coin : Bool) : Option Move :=
  s.activity.advance { s.circumstances with coin := coin } s.devices

/-- Whether a run waits: no move of it is left, and it does not let others go first. -/
def Waits (s : Solo) : Prop := s.activity.hasYielded = false ∧ ∀ coin, s.advance coin = none

theorem waits_of_sides {s : Solo} (hy : s.activity.hasYielded = false) (ht : s.advance true = none)
    (hf : s.advance false = none) : s.Waits :=
  ⟨hy, fun coin => by cases coin <;> assumption⟩

end Solo

/-- What can befall a run from outside. -/
inductive Disturbance where
  | control (c : Control)
  /-- Others use the channel, and notifications are dismissed one by one. -/
  | share (devices : Devices)

/-- A run in its course. -/
structure Course where
  run : Solo
  /-- The milliseconds for which the run was under way and not paused. -/
  awake : Nat := 0
  /-- What was seen of the run, the oldest first. -/
  notes : List Note := []

namespace Course

def disturbed (w : Course) : Disturbance → Course
  | .control c => { w with run := w.run.control c }
  | .share devices => { w with run := { w.run with devices := devices } }

def moved (w : Course) (m : Move) : Course :=
  { w with
    run := w.run.apply m
    notes := w.notes ++ (w.run.activity.sights m).map fun x => ⟨w.awake, w.run.signals, x⟩ }

/-- The turn of the run comes again after it let others go first. -/
def woken (w : Course) : Course := { w with run := { w.run with activity := w.run.activity.wake } }

/-- The time that a run is awake for while so many milliseconds pass. -/
def waking (w : Course) (ms : Nat) : Nat := if w.run.signals.paused || w.run.activity.isDone then 0 else ms

/-- The course when the clock has moved on to an instant, by so many milliseconds. -/
def passedTo (w : Course) (t : Instant) (ms : Nat) : Course :=
  { w with run := { w.run with now := t }, awake := w.awake + w.waking ms }

def passed (w : Course) (ms : Nat) : Course := w.passedTo (w.run.now.plusMillis ms) ms

/-- One step of a course in which only some disturbances occur. -/
inductive Step (ok : Disturbance → Prop) : Course → Course → Prop
  | disturb {w : Course} (x : Disturbance) (h : ok x) : Step ok w (w.disturbed x)
  | move {w : Course} (coin : Bool) {m : Move} (h : w.run.advance coin = some m) : Step ok w (w.moved m)
  | wake {w : Course} (h : w.run.activity.hasYielded = true) : Step ok w w.woken
  | pass {w : Course} (ms : Nat) (hpos : 0 < ms) (hw : w.run.Waits)
      (halarms : ∀ t ∈ w.run.activity.alarms, (w.run.now.plusMillis ms).nanos ≤ t.nanos) : Step ok w (w.passed ms)

/-- A course that leads on from another one. -/
abbrev Later (ok : Disturbance → Prop) : Course → Course → Prop := Relation.ReflTransGen (Step ok)

/-- A course that is about to begin, with nothing seen of it so far. -/
structure Begins (w : Course) (steps : List StepTimer.Step) : Prop where
  activity : w.run.activity = .ready steps
  awake : w.awake = 0
  notes : w.notes = []

/-- Some moves of a run in a row. -/
abbrev Moves : Course → Course → Prop :=
  Relation.ReflTransGen fun w w' => ∃ coin m, w.run.advance coin = some m ∧ w' = w.moved m

/-- One step of a course in which the run is polled as a whole: nothing befalls it before it waits. -/
inductive Tick (ok : Disturbance → Prop) : Course → Course → Prop
  | disturb {w : Course} (x : Disturbance) (h : ok x) : Tick ok w (w.disturbed x)
  | poll {w w' : Course} (hm : Moves w.woken w') (hrest : ∀ coin, w'.run.advance coin = none) : Tick ok w w'
  | pass {w : Course} (ms : Nat) (hpos : 0 < ms) (hw : w.run.Waits)
      (halarms : ∀ t ∈ w.run.activity.alarms, (w.run.now.plusMillis ms).nanos ≤ t.nanos) : Tick ok w (w.passed ms)

/-- A course that leads on from another one, with the run polled as a whole. -/
abbrev Ticks (ok : Disturbance → Prop) : Course → Course → Prop := Relation.ReflTransGen (Tick ok)

/-! ## What a step leaves as it is -/

variable (w : Course)

theorem activity_disturbed (x : Disturbance) : (w.disturbed x).run.activity = w.run.activity := by
  cases x with
  | control c => cases c <;> rfl
  | share devices => rfl

theorem notes_disturbed (x : Disturbance) : (w.disturbed x).notes = w.notes := by cases x <;> rfl

theorem awake_disturbed (x : Disturbance) : (w.disturbed x).awake = w.awake := by cases x <;> rfl

theorem now_disturbed (x : Disturbance) : (w.disturbed x).run.now = w.run.now := by
  cases x with
  | control c => cases c <;> rfl
  | share devices => rfl

theorem equipment_disturbed (x : Disturbance) : (w.disturbed x).run.equipment = w.run.equipment := by
  cases x with
  | control c => cases c <;> rfl
  | share devices => rfl

/-- Only an abort aborts a run. -/
theorem aborted_disturbed {x : Disturbance} (h : x ≠ .control .abort) :
    (w.disturbed x).run.signals.aborted = w.run.signals.aborted := by
  cases x with
  | control c =>
    cases c with
    | abort => exact absurd rfl h
    | _ => rfl
  | share devices => rfl

-- the instant is general here: compared with its own sum an instant would be counted through
theorem activity_passedTo (t : Instant) (ms : Nat) : (w.passedTo t ms).run.activity = w.run.activity := rfl

theorem signals_passedTo (t : Instant) (ms : Nat) : (w.passedTo t ms).run.signals = w.run.signals := rfl

theorem devices_passedTo (t : Instant) (ms : Nat) : (w.passedTo t ms).run.devices = w.run.devices := rfl

theorem equipment_passedTo (t : Instant) (ms : Nat) : (w.passedTo t ms).run.equipment = w.run.equipment := rfl

theorem notes_passedTo (t : Instant) (ms : Nat) : (w.passedTo t ms).notes = w.notes := rfl

theorem ended_passedTo (t : Instant) (ms : Nat) : (w.passedTo t ms).run.ended = w.run.ended := rfl

@[simp] theorem activity_passed (ms : Nat) : (w.passed ms).run.activity = w.run.activity := w.activity_passedTo _ ms

@[simp] theorem signals_passed (ms : Nat) : (w.passed ms).run.signals = w.run.signals := w.signals_passedTo _ ms

@[simp] theorem devices_passed (ms : Nat) : (w.passed ms).run.devices = w.run.devices := w.devices_passedTo _ ms

@[simp] theorem equipment_passed (ms : Nat) : (w.passed ms).run.equipment = w.run.equipment :=
  w.equipment_passedTo _ ms

@[simp] theorem ended_passed (ms : Nat) : (w.passed ms).run.ended = w.run.ended := w.ended_passedTo _ ms

@[simp] theorem now_passed (ms : Nat) : (w.passed ms).run.now = w.run.now.plusMillis ms := rfl

@[simp] theorem awake_passed (ms : Nat) : (w.passed ms).awake = w.awake + w.waking ms := rfl

@[simp] theorem notes_passed (ms : Nat) : (w.passed ms).notes = w.notes := w.notes_passedTo _ ms

variable {w}

theorem waking_of_isDone (h : w.run.activity.isDone = true) (ms : Nat) : w.waking ms = 0 := by simp [waking, h]

theorem waking_of_paused (h : w.run.signals.paused = true) (ms : Nat) : w.waking ms = 0 := by simp [waking, h]

theorem waking_of_not_isDone (h : w.run.activity.isDone = false) (ms : Nat) :
    w.waking ms = if w.run.signals.paused then 0 else ms := by simp [waking, h]

/-- What is kept by every step holds along the course. -/
theorem Later.induction {ok : Disturbance → Prop} {P : Course → Prop} {w' : Course}
    (hstep : ∀ w w', P w → Step ok w w' → P w') (h : Later ok w w') (hw : P w) : P w' := by
  induction h with
  | refl => exact hw
  | tail _ hs ih => exact hstep _ _ ih hs

theorem Moves.induction {P : Course → Prop} {w' : Course}
    (hmove : ∀ w coin m, P w → w.run.advance coin = some m → P (w.moved m)) (h : Moves w w') (hw : P w) : P w' := by
  induction h with
  | refl => exact hw
  | tail _ hs ih =>
    obtain ⟨coin, m, hm, rfl⟩ := hs
    exact hmove _ coin m ih hm

theorem Moves.later {ok : Disturbance → Prop} {w' : Course} (h : Moves w w') : Later ok w w' := by
  refine h.induction (P := fun v => Later ok w v) (fun v coin m hv hm => ?_) .refl
  exact hv.tail (.move coin hm)

/-! ## Courses that compute -/

/-- The course after at most so many moves, when the coin always falls on the same side. -/
def goOn : Nat → Course → Course
  | 0, w => w
  | n + 1, w => (w.run.advance true).elim w fun m => goOn n (w.moved m)

theorem moves_goOn (n : Nat) (w : Course) : Moves w (w.goOn n) := by
  induction n generalizing w with
  | zero => exact .refl
  | succ n ih =>
    unfold goOn
    cases hm : w.run.advance true with
    | none => exact .refl
    | some m => exact .head ⟨true, m, hm, rfl⟩ (ih (w.moved m))

end Course

end StepTimer
