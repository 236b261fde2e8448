/-
Lists of steps that unroll. When the blocks of a list are loops with a count, the run takes its steps
in the order of the unrolled list: each step before its children, and the children of a loop as often
as it counts. What is ahead of a run (`Activity.ahead`) is a part of that list. In the innermost of the
lists and loops that it is in (`Activity.core`) the run is between two steps or in an action, and a move
of it is one of three kinds (`CoreMove`): it goes on between two steps, it takes the step at the head of
what is ahead, or its action moves.
-/
import StepTimer.Proofs.Solo.Course

namespace StepTimer

/-- How often a loop runs its steps, when that is counted. -/
def RepeatCount.passes : RepeatCount → Nat
  | infinite => 0
  | times n => n.toNat

/-- How often a block runs its steps, when that is counted. -/
def Frame.passes : Frame → Nat
  | notifyUntil _ => 0
  | loop count => count.passes

namespace Step

mutual

/-- A step and all that is run in it, in order: the children of a loop once for each pass. -/
def unrolled : Step → List Step
  | leaf id action => [leaf id action]
  | block id frame children =>
    block id frame children :: (List.replicate frame.passes (unrolledAll children)).flatten

/-- The steps of a list and all that is run in them, in order. -/
def unrolledAll : List Step → List Step
  | [] => []
  | s :: rest => unrolled s ++ unrolledAll rest

end

mutual

/-- Whether a step unrolls: its blocks are loops with a count, and its actions are all of a kind. -/
def Unrolls (ok : Action → Prop) : Step → Prop
  | leaf _ action => ok action
  | block _ (.loop (.times _)) children => UnrollAll ok children
  | block _ _ _ => False

/-- Whether all steps of a list unroll. -/
def UnrollAll (ok : Action → Prop) : List Step → Prop
  | [] => True
  | s :: rest => Unrolls ok s ∧ UnrollAll ok rest

end

/-- The address that a step plays. -/
def sound? (fallback : String) : Step → Option String
  | leaf _ (.playSound spec) => some (spec.effectiveUrl fallback)
  | leaf _ (.playSoundUntil spec) => some (spec.effectiveUrl fallback)
  | _ => none

/-- What starts with a step: the step itself, and then its sound. -/
def starts (fallback : String) (s : Step) : List Sight :=
  .active s :: ((s.sound? fallback).map fun url => .event (.play url)).toList

theorem unrollAll_iff {ok : Action → Prop} {steps : List Step} : UnrollAll ok steps ↔ ∀ s ∈ steps, s.Unrolls ok := by
  induction steps with
  | nil => simp [UnrollAll]
  | cons s rest ih => simp [UnrollAll, ih]

end Step

namespace Activity

/-- The steps that are still to become active, in order. -/
def ahead : Activity → List Step
  | ready steps => Step.unrolledAll steps
  | held steps => Step.unrolledAll steps
  | within current rest => current.ahead ++ Step.unrolledAll rest
  | entering s => s.unrolled.tail
  | loopTop count children passes =>
    (List.replicate (count.passes - passes) (Step.unrolledAll children)).flatten
  | loopPass count children passes current =>
    current.ahead ++ (List.replicate (count.passes - (passes + 1)) (Step.unrolledAll children)).flatten
  | loopYield count children passes =>
    (List.replicate (count.passes - passes) (Step.unrolledAll children)).flatten
  | _ => []

/-- What a run does in the innermost of the lists and loops that it is in. -/
def core : Activity → Activity
  | within current _ => current.core
  | loopPass _ _ _ current => current.core
  | a => a

/-- Whether no step is under way but the loops that the run is in. -/
def isBetween : Activity → Bool
  | done => true
  | ready _ => true
  | held _ => true
  | loopTop _ _ _ => true
  | loopYield _ _ _ => true
  | _ => false

/-- The address that an action is still to play. -/
def pending? (fallback : String) : Activity → Option String
  | entering s => s.sound? fallback
  | sound _ _ (.playing _) => none
  | sound url _ _ => some url
  | _ => none

/-- What is still to start, in order. -/
def toStart (fallback : String) (a : Activity) : List Sight :=
  ((a.core.pending? fallback).map fun url => Sight.event (.play url)).toList ++ a.ahead.flatMap (Step.starts fallback)

/-- Whether all that is ahead of a run unrolls, and the action it is in is of the kind. -/
def Unrolls (fallback : String) (ok : Action → Prop) : Activity → Prop
  | done => True
  | ready steps => Step.UnrollAll ok steps
  | held steps => Step.UnrollAll ok steps
  | within current rest => current.Unrolls fallback ok ∧ Step.UnrollAll ok rest
  | entering s => s.Unrolls ok
  | counting _ _ => True
  | sound url replays _ =>
    replays = true ∧ ∃ spec, (ok (.playSound spec) ∨ ok (.playSoundUntil spec)) ∧ url = spec.effectiveUrl fallback
  | notifying _ _ _ => ∃ title body, ok (.notify title body)
  | loopTop count children _ => count ≠ .infinite ∧ Step.UnrollAll ok children
  | loopPass count children _ current =>
    count ≠ .infinite ∧ Step.UnrollAll ok children ∧ current.Unrolls fallback ok
  | loopYield count children _ => count ≠ .infinite ∧ Step.UnrollAll ok children
  | _ => False

variable {fallback : String} {ok : Action → Prop} {c : Circumstances} {d : Devices} {m : Move}

theorem unrolls_wake {a : Activity} (h : a.Unrolls fallback ok) : a.wake.Unrolls fallback ok := by
  induction a with
  | within current rest ih => exact ⟨ih h.1, h.2⟩
  | loopPass count children passes current ih => exact ⟨h.1, h.2.1, ih h.2.2⟩
  | alertRound r t current ih => cases h
  | _ => exact h

theorem ahead_wake (a : Activity) : a.wake.ahead = a.ahead := by
  induction a with
  | within current rest ih => exact congrArg (· ++ _) ih
  | loopPass count children passes current ih => exact congrArg (· ++ _) ih
  | _ => rfl

theorem core_wake (a : Activity) : a.wake.core = a.core.wake := by
  induction a with
  | within current rest ih => exact ih
  | loopPass count children passes current ih => exact ih
  | _ => rfl

theorem isBetween_wake {a : Activity} (h : a.isBetween = true) : a.wake.isBetween = true := by
  cases a with
  | loopYield count children passes => rfl
  | _ => exact h

theorem toStart_wake (a : Activity) : a.wake.toStart fallback = a.toStart fallback := by
  have hpending : a.core.wake.pending? fallback = a.core.pending? fallback := by cases a.core <;> rfl
  rw [toStart, toStart, ahead_wake, core_wake, hpending]

theorem unrolled_eq (s : Step) : s.unrolled = s :: s.unrolled.tail := by cases s <;> rfl

theorem core_of_isDone {a : Activity} (h : a.isDone = true) : a.core = done := by
  cases a with
  | done => rfl
  | _ => cases h

theorem ahead_of_isDone {a : Activity} (h : a.isDone = true) : a.ahead = [] := by
  cases a with
  | done => rfl
  | _ => cases h

theorem pending?_of_isBetween {a : Activity} (h : a.isBetween = true) : a.pending? fallback = none := by
  cases a with
  | entering s => cases h
  | sound url replays phase => cases h
  | _ => rfl

/-- An action of the kind that is under way. -/
inductive Acts (fallback : String) (ok : Action → Prop) : Activity → Prop
  | entering {s : Step} (h : s.Unrolls ok) : Acts fallback ok (entering s)
  | counting (id : StepId) (t : Ticking) : Acts fallback ok (counting id t)
  | sound {spec : SoundSpec} (h : ok (.playSound spec) ∨ ok (.playSoundUntil spec)) (phase : SoundPhase) :
      Acts fallback ok (sound (spec.effectiveUrl fallback) true phase)
  | notifying {title : String} {body : Option String} (h : ok (.notify title body)) (n : Notification)
      (phase : NoticePhase) (grace : Instant) : Acts fallback ok (notifying n phase grace)

/-- A run is between two steps or in an action of the kind. -/
theorem acts_core {a : Activity} (h : a.Unrolls fallback ok) (hb : a.core.isBetween = false) : Acts fallback ok a.core := by
  induction a with
  | within current rest ih => exact ih h.1 hb
  | loopPass count children passes current ih => exact ih h.2.2 hb
  | entering s => exact .entering h
  | counting id t => exact .counting id t
  | sound url replays phase =>
    obtain ⟨rfl, spec, hspec, rfl⟩ := h
    exact .sound hspec phase
  | notifying n phase grace =>
    obtain ⟨title, body, hn⟩ := h
    exact .notifying hn n phase grace
  | done => cases hb
  | ready steps => cases hb
  | held steps => cases hb
  | loopTop count children passes => cases hb
  | loopYield count children passes => cases hb
  | _ => cases h

/-- Where nothing else is under way, the alarms of a run are those of its action. -/
theorem alarms_core {a : Activity} (h : a.Unrolls fallback ok) : a.core.alarms = a.alarms := by
  induction a with
  | within current rest ih => exact ih h.1
  | loopPass count children passes current ih => exact ih h.2.2
  | _ => rfl

/-! ## A step that begins -/

/-- A loop that unrolls goes on to its first pass, or it is over. -/
theorem beginLoop_of_unrolls {id : StepId} {count : RepeatCount} {children : List Step}
    (h : (Step.block id (.loop count) children).Unrolls ok) (c : Circumstances) (d : Devices) :
    count ≠ .infinite ∧ Step.UnrollAll ok children ∧
      (beginStep c d (.block id (.loop count) children) = ⟨loopTop count children 0, d, []⟩ ∨
        children = [] ∧ beginStep c d (.block id (.loop count) children) = ⟨done, d, []⟩) := by
  cases count with
  | infinite => cases h
  | times n =>
    refine ⟨by simp, h, ?_⟩
    rcases beginLoop_cases id (.times n) children c d with hb | ⟨hnil, ⟨hinf, -⟩ | ⟨-, hb⟩⟩
    · exact Or.inl hb
    · cases hinf
    · exact Or.inr ⟨hnil, hb⟩

theorem entered?_beginStep (s : Step) : (beginStep c d s).next.entered? = none := by
  cases s with
  | leaf id action => cases action <;> rfl
  | block id frame children =>
    cases frame with
    | notifyUntil alert => rfl
    | loop count => rcases beginLoop_cases id count children c d with h | ⟨-, ⟨-, h⟩ | ⟨-, h⟩⟩ <;> rw [h] <;> rfl

theorem quiet_beginStep (s : Step) (url : String) : .play url ∉ (beginStep c d s).events := by
  cases s with
  | leaf id action => cases action <;> simp [beginStep, beginAction, beginWait]
  | block id frame children =>
    cases frame with
    | notifyUntil alert => simp [beginStep, beginBlock]
    | loop count => rcases beginLoop_cases id count children c d with h | ⟨-, ⟨-, h⟩ | ⟨-, h⟩⟩ <;> simp [h]

/-- What a step that unrolls goes into. -/
theorem beginStep_unrolls {s : Step} (h : s.Unrolls ok) (hf : c.equipment.defaultSound = fallback) :
    (beginStep c d s).next.Unrolls fallback ok := by
  cases s with
  | leaf id action =>
    cases action with
    | playSound spec => exact ⟨rfl, spec, Or.inl h, by rw [hf]⟩
    | playSoundUntil spec => exact ⟨rfl, spec, Or.inr h, by rw [hf]⟩
    | notify title body => exact ⟨title, body, h⟩
    | _ => trivial
  | block id frame children =>
    cases frame with
    | notifyUntil alert => cases h
    | loop count =>
      obtain ⟨hcount, hall, hb | ⟨-, hb⟩⟩ := beginLoop_of_unrolls h c d
      · rw [hb]; exact ⟨hcount, hall⟩
      · rw [hb]; trivial

/-- A step that has just become active has its children ahead. -/
theorem ahead_beginStep {s : Step} (h : s.Unrolls ok) : (beginStep c d s).next.ahead = s.unrolled.tail := by
  cases s with
  | leaf id action => cases action <;> rfl
  | block id frame children =>
    cases frame with
    | notifyUntil alert => cases h
    | loop count =>
      obtain ⟨-, -, hb | ⟨rfl, hb⟩⟩ := beginLoop_of_unrolls h c d
      · simp [hb, ahead, Step.unrolled, Frame.passes]
      · simp [hb, ahead, Step.unrolled, Step.unrolledAll]

theorem core_beginStep (s : Step) : (beginStep c d s).next.core = (beginStep c d s).next := by
  cases s with
  | leaf id action => cases action <;> rfl
  | block id frame children =>
    cases frame with
    | notifyUntil alert => rfl
    | loop count => rcases beginLoop_cases id count children c d with h | ⟨-, ⟨-, h⟩ | ⟨-, h⟩⟩ <;> rw [h] <;> rfl

/-- A step that has just become active has its sound to play. -/
theorem pending?_beginStep {s : Step} (h : s.Unrolls ok) (hf : c.equipment.defaultSound = fallback) :
    (beginStep c d s).next.pending? fallback = s.sound? fallback := by
  cases s with
  | leaf id action =>
    cases action with
    | playSound spec => rw [← hf]; rfl
    | playSoundUntil spec => rw [← hf]; rfl
    | _ => rfl
  | block id frame children =>
    cases frame with
    | notifyUntil alert => cases h
    | loop count => rcases beginLoop_cases id count children c d with h | ⟨-, ⟨-, h⟩ | ⟨-, h⟩⟩ <;> rw [h] <;> rfl

/-- The decision on the next pass of a loop leaves what is ahead as it is. -/
theorem ahead_loopTop {count : RepeatCount} (hcount : count ≠ .infinite) (ha : c.signals.aborted = false)
    (children : List Step) (passes : Nat) (d : Devices) :
    (advanceLoopTop count children passes c d).next.ahead = (loopTop count children passes).ahead := by
  cases count with
  | infinite => exact absurd rfl hcount
  | times n =>
    by_cases hn : n.toNat ≤ passes
    · simp [advanceLoopTop, hn, ahead, RepeatCount.passes, Nat.sub_eq_zero_of_le hn]
    · have hleft : n.toNat - passes = (n.toNat - (passes + 1)) + 1 := by omega
      simp only [advanceLoopTop, hn, ha, ahead, RepeatCount.passes, decide_false, Bool.or_false]
      rw [hleft, List.replicate_succ, List.flatten_cons]
      rfl

/-! ## Moves -/

/-- A run that is not aborted drops no step of a list. -/
theorem advance_ready_cases {steps : List Step} (ha : c.signals.aborted = false) (h : (ready steps).advance c d = some m) :
    (steps = [] ∧ m = ⟨done, d, []⟩) ∨ m = ⟨held steps, d, []⟩ ∨ ∃ s rest, steps = s :: rest ∧ m = activate d s rest := by
  cases steps with
  | nil => cases h; exact Or.inl ⟨rfl, rfl⟩
  | cons s rest =>
    cases hp : c.signals.paused <;> simp only [advance, ha, hp] at h <;> cases h
    · exact Or.inr (Or.inr ⟨s, rest, rfl, rfl⟩)
    · exact Or.inr (Or.inl rfl)

theorem advance_held_cases {steps : List Step} (ha : c.signals.aborted = false) (h : (held steps).advance c d = some m) :
    (steps = [] ∧ m = ⟨done, d, []⟩) ∨ ∃ s rest, steps = s :: rest ∧ m = activate d s rest := by
  cases steps with
  | nil => cases h; exact Or.inl ⟨rfl, rfl⟩
  | cons s rest =>
    cases hp : c.signals.paused <;> simp only [advance, ha, hp] at h <;> cases h
    exact Or.inr ⟨s, rest, rfl, rfl⟩

/-- A run that is about to go on with a list does so at once, unless it waits for a pause to end. -/
theorem paused_of_advance_held {steps : List Step} (ha : c.signals.aborted = false)
    (h : (ready steps).advance c d = none ∨ (held steps).advance c d = none) : c.signals.paused = true := by
  cases steps with
  | nil => rcases h with h | h <;> cases h
  | cons s rest =>
    cases hp : c.signals.paused
    · simp [advance, ha, hp] at h
    · rfl

/-- What lies ahead of a run still unrolls after a move of it. -/
theorem advance_unrolls {a : Activity} (hu : a.Unrolls fallback ok) (hf : c.equipment.defaultSound = fallback)
    (h : a.advance c d = some m) : m.next.Unrolls fallback ok := by
  induction a generalizing m with
  | done => cases h
  | ready steps =>
    rcases advance_ready h with rfl | ⟨-, rfl | ⟨s, rest, rfl, rfl⟩⟩
    · trivial
    · exact hu
    · exact hu
  | held steps =>
    rcases advance_held h with rfl | ⟨-, s, rest, rfl, rfl⟩
    · trivial
    · exact hu
  | within current rest ih =>
    rcases advance_within h with ⟨-, rfl⟩ | ⟨m', hm', rfl⟩
    · exact hu.2
    · exact ⟨ih hu.1 hm', hu.2⟩
  | entering s => cases h; exact beginStep_unrolls hu hf
  | counting id t =>
    obtain ⟨-, ⟨hnext, -⟩ | ⟨tm, t', -, -, hnext, -⟩⟩ := advance_counting h <;> rw [hnext] <;> trivial
  | sound url replays phase =>
    rcases advance_sound h with ⟨-, rfl⟩ | ⟨-, rfl⟩ | ⟨-, rfl⟩ | ⟨call, how, -, -, rfl⟩
    · exact hu
    · exact hu
    · split
      · trivial
      · exact hu
    · dsimp only
      split
      · exact hu
      · trivial
  | notifying n phase grace =>
    rcases advance_notifying h with ⟨due, delay, fails, -, rfl⟩ | ⟨hnext, -⟩
    · exact hu
    · rw [hnext]; trivial
  | loopTop count children passes =>
    cases h
    rcases loopTop_cases count children passes c d with h | ⟨-, h⟩ <;> rw [h]
    · trivial
    · exact ⟨hu.1, hu.2, hu.2⟩
  | loopPass count children passes current ih =>
    rcases advance_loopPass h with ⟨-, rfl⟩ | ⟨m', hm', rfl⟩
    · exact ⟨hu.1, hu.2.1⟩
    · exact ⟨hu.1, hu.2.1, ih hu.2.2 hm'⟩
  | loopYield count children passes => cases h
  | _ => cases hu

theorem sights_congr {a b : Activity} {m m' : Move} (ha : a.entered? = b.entered?)
    (hn : m.next.entered? = m'.next.entered?) (he : m.events = m'.events) : a.sights m = b.sights m' := by
  unfold sights activated?
  rw [ha, hn, he]

/-- A move in which no step is entered shows its events alone. -/
theorem sights_eq_events (a : Activity) (hn : m.next.entered? = none) : a.sights m = m.events.map .event := by
  rw [sights, a.activated?_eq_none hn]
  rfl

/-- What a move of a run is in the innermost of the lists and loops that it is in. -/
inductive CoreMove (c : Circumstances) (d : Devices) (a : Activity) (m : Move) : Prop
  /-- It goes on between two steps. -/
  | idle (ha : a.core.isBetween = true) (hn : m.next.core.isBetween = true) (hahead : m.next.ahead = a.ahead)
      (hd : m.devices = d) (hs : a.sights m = [])
  /-- The step at the head of what is ahead becomes active. -/
  | activates (s : Step) (ha : a.core.isBetween = true) (hn : m.next.core = entering s)
      (hahead : a.ahead = s :: m.next.ahead) (hd : m.devices = d)
      (hs : a.sights m = [.active s, .event (.progress s.id none)])
  /-- Its action moves. -/
  | acts {m' : Move} (ha : a.core.isBetween = false) (hm : a.core.advance c d = some m')
      (hn : m.next.core = m'.next) (hahead : m.next.ahead = a.ahead) (hd : m.devices = m'.devices)
      (hs : a.sights m = m'.events.map .event)

/-- A move in a list or a loop is the same move for what is around it. -/
theorem CoreMove.outer {a b : Activity} {m m' : Move} (h : CoreMove c d a m) {rest : List Step} (hcore : b.core = a.core)
    (hnext : m'.next.core = m.next.core) (hahead : b.ahead = a.ahead ++ rest)
    (hahead' : m'.next.ahead = m.next.ahead ++ rest) (hd : m'.devices = m.devices) (hs : b.sights m' = a.sights m) :
    CoreMove c d b m' := by
  cases h with
  | idle ha hn h hdev hsights =>
    exact .idle (by rw [hcore, ha]) (by rw [hnext, hn]) (by rw [hahead', hahead, h]) (hd.trans hdev) (hs.trans hsights)
  | activates s ha hn h hdev hsights =>
    refine .activates s (by rw [hcore, ha]) (hnext.trans hn) ?_ (hd.trans hdev) (hs.trans hsights)
    rw [hahead, hahead', h, List.cons_append]
  | acts ha hm hn h hdev hsights =>
    exact .acts (by rw [hcore, ha]) (by rw [hcore, hm]) (hnext.trans hn) (by rw [hahead', hahead, h]) (hd.trans hdev)
      (hs.trans hsights)

theorem coreMove_activate {a : Activity} (hcore : a.core.isBetween = true) (ha : a.entered? = none) {s : Step}
    {rest : List Step} (hahead : a.ahead = Step.unrolledAll (s :: rest)) : CoreMove c d a (activate d s rest) := by
  refine .activates s hcore rfl ?_ rfl ?_
  · rw [hahead, Step.unrolledAll, unrolled_eq]
    rfl
  · simp only [sights, activated?, ha]
    rfl

/-- What a move of a run is, while the run is not aborted. -/
theorem coreMove_advance {a : Activity} (hu : a.Unrolls fallback ok) (ha : c.signals.aborted = false)
    (h : a.advance c d = some m) : CoreMove c d a m := by
  induction a generalizing m with
  | done => cases h
  | ready steps =>
    rcases advance_ready_cases ha h with ⟨rfl, rfl⟩ | rfl | ⟨s, rest, rfl, rfl⟩
    · exact .idle rfl rfl rfl rfl rfl
    · exact .idle rfl rfl rfl rfl rfl
    · exact coreMove_activate rfl rfl rfl
  | held steps =>
    rcases advance_held_cases ha h with ⟨rfl, rfl⟩ | ⟨s, rest, rfl, rfl⟩
    · exact .idle rfl rfl rfl rfl rfl
    · exact coreMove_activate rfl rfl rfl
  | within current rest ih =>
    rcases advance_within h with ⟨hd, rfl⟩ | ⟨m', hm', rfl⟩
    · refine .idle ?_ rfl ?_ rfl (sights_eq_events _ rfl)
      · rw [core, core_of_isDone hd]; rfl
      · simp [ahead, ahead_of_isDone hd]
    · exact (ih hu.1 hm').outer rfl rfl rfl rfl rfl (sights_congr rfl rfl rfl)
  | entering s =>
    cases h
    exact .acts rfl rfl (core_beginStep s) (ahead_beginStep hu) rfl (sights_eq_events _ (entered?_beginStep s))
  | counting id t =>
    obtain ⟨-, ⟨hnext, -⟩ | ⟨tm, t', -, -, hnext, -⟩⟩ := advance_counting h <;>
      exact .acts rfl h (by rw [hnext]; rfl) (by rw [hnext]; rfl) rfl (sights_eq_events _ (by rw [hnext]; rfl))
  | sound url replays phase =>
    have hnext : m.next = done ∨ ∃ phase', m.next = sound url replays phase' := by
      rcases advance_sound h with ⟨-, rfl⟩ | ⟨-, rfl⟩ | ⟨-, rfl⟩ | ⟨call, how, -, -, rfl⟩
      · exact Or.inr ⟨_, rfl⟩
      · exact Or.inr ⟨_, rfl⟩
      · split
        · exact Or.inl rfl
        · exact Or.inr ⟨_, rfl⟩
      · dsimp only
        split
        · exact Or.inr ⟨_, rfl⟩
        · exact Or.inl rfl
    rcases hnext with hnext | ⟨phase', hnext⟩ <;>
      exact .acts rfl h (by rw [hnext]; rfl) (by rw [hnext]; rfl) rfl (sights_eq_events _ (by rw [hnext]; rfl))
  | notifying n phase grace =>
    rcases advance_notifying h with ⟨due, delay, fails, -, rfl⟩ | ⟨hnext, -⟩
    · exact .acts rfl h rfl rfl rfl rfl
    · exact .acts rfl h (by rw [hnext]; rfl) (by rw [hnext]; rfl) rfl (sights_eq_events _ (by rw [hnext]; rfl))
  | loopTop count children passes =>
    cases h
    have hahead := ahead_loopTop hu.1 ha children passes d
    rcases loopTop_cases count children passes c d with h | ⟨-, h⟩ <;> rw [h] at hahead ⊢ <;>
      exact .idle rfl rfl hahead rfl rfl
  | loopPass count children passes current ih =>
    rcases advance_loopPass h with ⟨hd, rfl⟩ | ⟨m', hm', rfl⟩
    · refine .idle ?_ rfl ?_ rfl (sights_eq_events _ rfl)
      · rw [core, core_of_isDone hd]; rfl
      · simp [ahead, ahead_of_isDone hd]
    · exact (ih hu.2.2 hm').outer rfl rfl rfl rfl rfl (sights_congr rfl rfl rfl)
  | loopYield count children passes => cases h
  | _ => cases hu

/-- A run that does not go on is done, held by a pause, or in an action that does not go on. -/
theorem core_of_advance_eq_none {a : Activity} (hu : a.Unrolls fallback ok) (ha : c.signals.aborted = false)
    (hy : a.hasYielded = false) (h : a.advance c d = none) :
    (a.core.isBetween = true ∧ (a.isDone = true ∨ c.signals.paused = true)) ∨
      (a.core.isBetween = false ∧ a.core.advance c d = none) := by
  induction a with
  | done => exact Or.inl ⟨rfl, Or.inl rfl⟩
  | ready steps => exact Or.inl ⟨rfl, Or.inr (paused_of_advance_held ha (Or.inl h))⟩
  | held steps => exact Or.inl ⟨rfl, Or.inr (paused_of_advance_held ha (Or.inr h))⟩
  | within current rest ih =>
    simp only [advance] at h
    split at h
    · cases h
    · rename_i hcur
      obtain ⟨hcore, hdone | hp⟩ | hact := ih hu.1 hy (by simpa using h)
      · exact absurd hdone hcur
      · exact Or.inl ⟨hcore, Or.inr hp⟩
      · exact Or.inr hact
  | loopTop count children passes => cases h
  | loopPass count children passes current ih =>
    simp only [advance] at h
    split at h
    · cases h
    · rename_i hcur
      obtain ⟨hcore, hdone | hp⟩ | hact := ih hu.2.2 hy (by simpa using h)
      · exact absurd hdone hcur
      · exact Or.inl ⟨hcore, Or.inr hp⟩
      · exact Or.inr hact
  | loopYield count children passes => cases hy
  | _ => exact Or.inr ⟨rfl, h⟩

/-! ## What starts -/

/-- What starts with a move. -/
def startsOf (a : Activity) (m : Move) : List Sight := (a.sights m).filter Sight.isStart

/-- What an action starts is the sound that it had to play. -/
theorem starts_acts {a : Activity} {m : Move} (hacts : Acts fallback ok a)
    (hf : c.equipment.defaultSound = fallback) (ha : c.signals.aborted = false)
    (hp : c.signals.paused = false) (h : a.advance c d = some m) :
    (m.events.map Sight.event).filter Sight.isStart ++
        ((m.next.pending? fallback).map fun url => Sight.event (.play url)).toList =
      ((a.pending? fallback).map fun url => Sight.event (.play url)).toList := by
  -- where no sound begins nothing starts
  have hquiet (hq : ∀ url, .play url ∉ m.events) : (m.events.map Sight.event).filter Sight.isStart = [] := by
    simp only [List.filter_eq_nil_iff, List.mem_map]
    rintro x ⟨e, he, rfl⟩
    cases e with
    | play url => exact absurd he (hq url)
    | _ => simp [Sight.isStart]
  cases hacts with
  | @entering s hs =>
    cases h
    rw [hquiet (quiet_beginStep s), pending?_beginStep hs hf]
    rfl
  | counting id t =>
    obtain ⟨-, ⟨hnext, he⟩ | ⟨tm, t', -, -, hnext, he⟩⟩ := advance_counting h
    · rw [hquiet (by simp [he]), hnext]; rfl
    · rw [hquiet (quiet_ticking he), hnext]; rfl
  | sound hspec phase =>
    rcases advance_sound h with ⟨rfl, rfl⟩ | ⟨rfl, rfl⟩ | ⟨rfl, rfl⟩ | ⟨call, how, rfl, -, rfl⟩
    · rw [hp]; rfl
    · rfl
    · rw [if_neg (by simp [ha])]; rfl
    · simp only [hp, Bool.and_false, Bool.false_and, Bool.false_eq_true, if_false]
      rw [hquiet (by cases how <;> simp [endEvent])]
      rfl
  | notifying hn n phase grace =>
    rcases advance_notifying h with ⟨due, delay, fails, -, rfl⟩ | ⟨hnext, -, he⟩
    · rfl
    · rw [hquiet (by rcases he with he | he <;> simp [he]), hnext]; rfl

/-- A run that is neither paused nor aborted goes on at the head of what is ahead of it. -/
theorem startsOf_advance {a : Activity} (hu : a.Unrolls fallback ok) (hf : c.equipment.defaultSound = fallback)
    (ha : c.signals.aborted = false) (hp : c.signals.paused = false) (h : a.advance c d = some m) :
    a.startsOf m ++ m.next.toStart fallback = a.toStart fallback := by
  cases coreMove_advance hu ha h with
  | idle hcore hn hahead hd hs =>
    simp [startsOf, toStart, hs, hahead, pending?_of_isBetween hcore, pending?_of_isBetween hn]
  | activates s hcore hn hahead hd hs =>
    have hpending : m.next.core.pending? fallback = s.sound? fallback := by rw [hn]; rfl
    simp [startsOf, toStart, hs, hahead, pending?_of_isBetween hcore, hpending, Step.starts]
    rfl
  | acts hcore hm hn hahead hd hs =>
    have hacts := starts_acts (acts_core hu hcore) hf ha hp hm
    rw [startsOf, toStart, toStart, hs, hahead, hn, ← List.append_assoc, hacts]

end Activity

end StepTimer
