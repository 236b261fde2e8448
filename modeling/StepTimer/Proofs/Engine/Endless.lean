/-
Sounds without end. A run that goes on at once whenever its sound is cut off may start sounds without end at
one instant: it is in an endless loop, or in an alert with time left and without an interval, whose passes or
rounds take no time apart from their sounds, or it comes to one without having to wait. An alert that still
waits for the notifier is none of these, nor is one that is over. These are the runs whose volley is infinite.
-/
import StepTimer.Proofs.Engine.Volley
import Mathlib.Algebra.Order.Ring.WithTop

namespace StepTimer

theorem afterwards_ne_zero {waits : Bool} {n : ℕ∞} : afterwards waits n ≠ 0 ↔ waits = false ∧ n ≠ 0 := by
  cases waits <;> simp [afterwards]

theorem afterwards_eq_top {waits : Bool} {n : ℕ∞} : afterwards waits n = ⊤ ↔ waits = false ∧ n = ⊤ := by
  cases waits <;> simp [afterwards]

/-- A product is infinite if a factor is, unless the other one is zero. -/
theorem mul_eq_top {m n : ℕ∞} : m * n = ⊤ ↔ m ≠ 0 ∧ n = ⊤ ∨ m = ⊤ ∧ n ≠ 0 := WithTop.mul_eq_top_iff

/-! ## Steps -/

namespace Step

mutual

/-- Whether a step may start a sound at the instant at which it begins. -/
def startsSound : Step → Bool
  | leaf _ (.playSound _) => true
  | leaf _ (.playSoundUntil _) => true
  | leaf _ _ => false
  | block _ (.notifyUntil alert) children =>
    decide (0 < alert.timeout.toNat) && (children.isEmpty || startsSoundIn children)
  | block _ (.loop count) children => count.exceeds 0 && startsSoundIn children

/-- Whether one of the steps of a list may start a sound at the instant at which the first of them begins. -/
def startsSoundIn : List Step → Bool
  | [] => false
  | s :: rest => startsSound s || !takesTime s && startsSoundIn rest

end

end Step

/-- Whether the rounds of an alert follow each other at once, and start sounds. -/
def Alert.repeatsAtOnce (alert : Alert) (children : List Step) : Bool :=
  !decide (0 < alert.intervalMs.toNat) && !Step.takesTimeIn children &&
    (children.isEmpty || Step.startsSoundIn children)

/-- Whether the passes of a loop follow each other at once without end, and start sounds. -/
def RepeatCount.repeatsAtOnce (count : RepeatCount) (children : List Step) : Bool :=
  decide (count = .infinite) && !Step.takesTimeIn children && Step.startsSoundIn children

namespace Step

mutual

/-- Whether a step may start sounds without end at the instant at which it begins, if each is cut off at once. -/
def isEndless : Step → Bool
  | leaf _ _ => false
  | block _ (.notifyUntil alert) children =>
    decide (0 < alert.timeout.toNat) && (isEndlessIn children || alert.repeatsAtOnce children)
  | block _ (.loop count) children => count.exceeds 0 && (isEndlessIn children || count.repeatsAtOnce children)

/-- Whether one of the steps of a list may start sounds without end at the instant at which the first of them
begins. -/
def isEndlessIn : List Step → Bool
  | [] => false
  | s :: rest => isEndless s || !takesTime s && isEndlessIn rest

end

end Step

/-! ## Activities -/

namespace Raised

/-- Whether an alert with time left may start sounds without end. -/
def isEndless (r : Raised) : Bool := Step.isEndlessIn r.children || r.alert.repeatsAtOnce r.children

/-- Whether an alert may start sounds without end at a moment. It may not after its dismissal, and when its time is
over but that has not been seen there is one more round. -/
def isEndlessAt (r : Raised) (k : Moment) (hasTime : Bool) : Bool :=
  !r.isOff k && if hasTime then r.isEndless else Step.isEndlessIn r.children

end Raised

/-- Whether an activity may start sounds without end at a moment, if each is cut off at once. -/
def Activity.isEndless (k : Moment) : Activity → Bool
  | done => false
  | ready steps => Step.isEndlessIn steps
  | held steps => Step.isEndlessIn steps
  | within current rest => current.isEndless k || !current.lasts k && Step.isEndlessIn rest
  | entering s => s.isEndless
  | counting _ _ => false
  | sound _ _ _ => false
  | notifying _ _ _ => false
  | announcing id alert children countdown phase =>
    phase.isDue k.now && !countdown.expired &&
      Raised.isEndlessAt ⟨id, alert, children, none⟩ k (0 < countdown.due k.now)
  | alertTop r countdown => !countdown.expired && r.isEndlessAt k (0 < countdown.due k.now)
  | alertHeld r countdown => !countdown.expired && r.isEndlessAt k (0 < countdown.due k.now)
  | alertRound r t current =>
    current.isEndless k || !r.isOver k t &&
      !((current.lasts k || decide (0 < r.alert.intervalMs.toNat)) && decide (t.floor ≤ 0)) && r.isEndless
  | alertGap r t => !decide (t.floor < t.left k.now) && r.isEndlessAt k (0 < t.left k.now)
  | loopTop count children passes =>
    count.exceeds passes && (Step.isEndlessIn children || count.repeatsAtOnce children)
  | loopPass count children passes current =>
    current.isEndless k || !current.lasts k &&
      (count.exceeds (passes + 1) && (Step.isEndlessIn children || count.repeatsAtOnce children))
  | loopYield count children passes =>
    count.exceeds passes && (Step.isEndlessIn children || count.repeatsAtOnce children)
  | parked => false

/-! ## Infinite volleys -/

namespace RepeatCount

variable {count : RepeatCount} {children : List Step} {passes : Nat}

theorem turns_ne_zero : count.turns children passes ≠ 0 ↔ count.exceeds passes = true := by
  unfold turns
  split
  · cases count.exceeds passes <;> simp
  · cases count with
    | infinite => simp [left, exceeds]
    | times n =>
      rw [left, exceeds, decide_eq_true_eq, Nat.cast_ne_zero]
      omega

theorem turns_eq_top :
    count.turns children passes = ⊤ ↔ count = .infinite ∧ Step.takesTimeIn children = false := by
  unfold turns
  cases Step.takesTimeIn children with
  | true => cases count.exceeds passes <;> simp
  | false => cases count <;> simp [left]

end RepeatCount

namespace Alert

variable {alert : Alert} {children : List Step} {n : ℕ∞}

theorem rounds_ne_zero : alert.rounds children ≠ 0 := by
  unfold rounds
  split <;> simp

theorem rounds_eq_top :
    alert.rounds children = ⊤ ↔ ¬ 0 < alert.intervalMs.toNat ∧ Step.takesTimeIn children = false := by
  unfold rounds
  split
  next h => cases hc : Step.takesTimeIn children <;> simp_all
  next h => cases hc : Step.takesTimeIn children <;> simp_all

end Alert

namespace Step

theorem isEndlessIn_of_isEmpty {children : List Step} (h : children.isEmpty = true) : isEndlessIn children = false := by
  cases children with
  | nil => rfl
  | cons s rest => cases h

/-- The rounds of an alert, each with so many sounds. -/
theorem roundVolley_ne_zero {children : List Step} (h : volleyOf children ≠ 0 ↔ startsSoundIn children = true) :
    (if children.isEmpty then 1 else volleyOf children) ≠ 0 ↔
      (children.isEmpty || startsSoundIn children) = true := by
  cases children.isEmpty <;> simp [h]

theorem roundVolley_eq_top {children : List Step} (h : volleyOf children = ⊤ ↔ isEndlessIn children = true) :
    (if children.isEmpty then 1 else volleyOf children) = ⊤ ↔ isEndlessIn children = true := by
  cases he : children.isEmpty with
  | false => simpa using h
  | true => simp [isEndlessIn_of_isEmpty he]

mutual

theorem volley_ne_zero (s : Step) : s.volley ≠ 0 ↔ s.startsSound = true := by
  cases s with
  | leaf id action => cases action <;> simp [volley, startsSound]
  | block id frame children =>
    have ih := volleyOf_ne_zero children
    cases frame with
    | notifyUntil alert =>
      simp only [volley, startsSound]
      split
      next htimeout =>
        rw [mul_ne_zero_iff, roundVolley_ne_zero ih]
        simp [Alert.rounds_ne_zero, htimeout]
      next htimeout => simp [htimeout]
    | loop count =>
      simp only [volley, startsSound]
      rw [mul_ne_zero_iff, RepeatCount.turns_ne_zero, ih, Bool.and_eq_true]

theorem volleyOf_ne_zero (steps : List Step) : volleyOf steps ≠ 0 ↔ startsSoundIn steps = true := by
  cases steps with
  | nil => simp [volleyOf, startsSoundIn]
  | cons s rest =>
    have first := volley_ne_zero s
    have ih := volleyOf_ne_zero rest
    rw [volleyOf, startsSoundIn, Bool.or_eq_true, Bool.and_eq_true, Bool.not_eq_true', ← first, ← ih,
      ← afterwards_ne_zero, ne_eq, add_eq_zero, not_and_or]

end

theorem repeats_ne_zero (children : List Step) :
    (if children.isEmpty then 1 else volleyOf children) ≠ 0 ↔
      (children.isEmpty || startsSoundIn children) = true := roundVolley_ne_zero (volleyOf_ne_zero children)

/-- The sounds of an alert with time left are infinite if those of a round are, or the rounds and a sound in each. -/
theorem rounds_mul_eq_top {alert : Alert} {children : List Step}
    (h : volleyOf children = ⊤ ↔ isEndlessIn children = true) :
    (alert.rounds children * if children.isEmpty then 1 else volleyOf children) = ⊤ ↔
      (isEndlessIn children || alert.repeatsAtOnce children) = true := by
  rw [mul_eq_top, roundVolley_eq_top h, repeats_ne_zero, Alert.rounds_eq_top]
  simp [Alert.rounds_ne_zero, Alert.repeatsAtOnce]

theorem turns_mul_eq_top {count : RepeatCount} {children : List Step} {passes : Nat}
    (h : volleyOf children = ⊤ ↔ isEndlessIn children = true) :
    count.turns children passes * volleyOf children = ⊤ ↔
      (count.exceeds passes && (isEndlessIn children || count.repeatsAtOnce children)) = true := by
  rw [mul_eq_top, h, volleyOf_ne_zero, RepeatCount.turns_eq_top, RepeatCount.turns_ne_zero]
  cases count <;> simp [RepeatCount.repeatsAtOnce, RepeatCount.exceeds]

mutual

theorem volley_eq_top (s : Step) : s.volley = ⊤ ↔ s.isEndless = true := by
  cases s with
  | leaf id action => cases action <;> simp [volley, isEndless]
  | block id frame children =>
    have ih := volleyOf_eq_top children
    cases frame with
    | notifyUntil alert =>
      simp only [volley, isEndless]
      split
      next htimeout => rw [rounds_mul_eq_top ih, decide_eq_true htimeout, Bool.true_and]
      next htimeout => simp [htimeout]
    | loop count => exact turns_mul_eq_top ih

theorem volleyOf_eq_top (steps : List Step) : volleyOf steps = ⊤ ↔ isEndlessIn steps = true := by
  cases steps with
  | nil => simp [volleyOf, isEndlessIn]
  | cons s rest =>
    have first := volley_eq_top s
    have ih := volleyOf_eq_top rest
    rw [volleyOf, isEndlessIn, ENat.add_eq_top, afterwards_eq_top, first, ih, Bool.or_eq_true, Bool.and_eq_true,
      Bool.not_eq_true']

end

end Step

namespace Raised

variable {r : Raised} {k : Moment} {hasTime : Bool}

theorem volley_eq_top : r.volley = ⊤ ↔ r.isEndless = true := Step.rounds_mul_eq_top (Step.volleyOf_eq_top r.children)

theorem volleyIn_eq_top : r.volleyIn k hasTime = ⊤ ↔ r.isEndlessAt k hasTime = true := by
  unfold volleyIn isEndlessAt
  cases r.isOff k with
  | true => simp
  | false =>
    cases hasTime with
    | true => simpa using volley_eq_top
    | false =>
      have round : r.roundVolley = ⊤ ↔ Step.isEndlessIn r.children = true :=
        Step.roundVolley_eq_top (Step.volleyOf_eq_top r.children)
      simpa using round

end Raised

/-- The activities with an infinite volley are the endless ones. -/
theorem Activity.volley_eq_top {k : Moment} (a : Activity) : a.volley k = ⊤ ↔ a.isEndless k = true := by
  induction a with
  | done | counting | notifying | parked => simp [volley, isEndless]
  | ready steps => exact Step.volleyOf_eq_top steps
  | held steps => exact Step.volleyOf_eq_top steps
  | within current rest ih =>
    simp only [volley, isEndless, ENat.add_eq_top, afterwards_eq_top, ih, Step.volleyOf_eq_top, Bool.or_eq_true,
      Bool.and_eq_true, Bool.not_eq_true']
  | entering s => exact Step.volley_eq_top s
  | sound url replays phase => cases phase <;> simp [volley, isEndless]
  | announcing id alert children countdown phase =>
    simp only [volley, isEndless, afterwards_eq_top, Raised.volleyIn_eq_top]
    cases phase.isDue k.now <;> simp
  | alertTop r countdown | alertHeld r countdown =>
    simp only [volley, isEndless, afterwards_eq_top, Raised.volleyIn_eq_top, Bool.and_eq_true, Bool.not_eq_true']
  | alertRound r t current ih =>
    simp only [volley, isEndless, ENat.add_eq_top, afterwards_eq_top, ih, Raised.volley_eq_top, Bool.or_eq_true,
      Bool.and_eq_true, Bool.not_eq_true', Bool.or_eq_false_iff]
  | alertGap r t =>
    simp only [volley, isEndless, afterwards_eq_top, Raised.volleyIn_eq_top, Bool.and_eq_true, Bool.not_eq_true']
  | loopTop count children passes | loopYield count children passes =>
    exact Step.turns_mul_eq_top (Step.volleyOf_eq_top children)
  | loopPass count children passes current ih =>
    simp only [volley, isEndless, ENat.add_eq_top, afterwards_eq_top, ih,
      Step.turns_mul_eq_top (Step.volleyOf_eq_top children), Bool.or_eq_true, Bool.and_eq_true, Bool.not_eq_true']

end StepTimer
