/-
The settings of steps, as they stand in a list of steps at any depth, and the amounts of time in them.
-/
import StepTimer.Tree.Fresh

namespace StepTimer

/-! ## Amounts -/

/-- The amounts that an action is set to. -/
def Action.amounts : Action → List Double
  | wait amount _ => [amount]
  | _ => []

/-- The amounts that a block is set to. -/
def Frame.amounts : Frame → List Double
  | notifyUntil alert => [alert.interval]
  | loop _ => []

/-- The amounts in the settings of a step. -/
def Settings.amounts : Settings → List Double
  | action a => a.amounts
  | block f => f.amounts

namespace Step

mutual

/-- The settings of a step and of all steps below it. -/
def settingsIn : Step → List Settings
  | leaf _ a => [.action a]
  | block _ f children => .block f :: settingsOf children

/-- The settings of the steps of a list and of all steps below them. -/
def settingsOf : List Step → List Settings
  | [] => []
  | s :: rest => settingsIn s ++ settingsOf rest

end

/-- The amounts in a step and in all steps below it. -/
def amounts (s : Step) : List Double := s.settingsIn.flatMap Settings.amounts

/-- The amounts in the steps of a list and in all steps below them. -/
def amountsOf (steps : List Step) : List Double := (settingsOf steps).flatMap Settings.amounts

@[simp] theorem amounts_leaf (id : StepId) (a : Action) : (leaf id a).amounts = a.amounts := by
  simp [amounts, settingsIn, Settings.amounts]

@[simp] theorem amounts_block (id : StepId) (f : Frame) (children : List Step) :
    (block id f children).amounts = f.amounts ++ amountsOf children := by
  simp [amounts, amountsOf, settingsIn, Settings.amounts]

@[simp] theorem amountsOf_nil : amountsOf [] = [] := rfl

@[simp] theorem amountsOf_cons (s : Step) (rest : List Step) : amountsOf (s :: rest) = s.amounts ++ amountsOf rest := by
  simp [amounts, amountsOf, settingsOf]

theorem mem_settingsOf {g : Settings} {steps : List Step} : g ∈ settingsOf steps ↔ ∃ s ∈ steps, g ∈ s.settingsIn := by
  induction steps with
  | nil => simp [settingsOf]
  | cons s rest ih => simp [settingsOf, ih]

/-- The settings of a step and those of its children. -/
theorem settingsIn_cons (s : Step) : s.settingsIn = s.settings :: settingsOf s.children := by
  cases s <;> rfl

/-! ## Fresh names -/

mutual

theorem settingsIn_withFreshIds (source : IdSource) :
    ∀ s : Step, (s.withFreshIds source).1.settingsIn = s.settingsIn
  | leaf _ _ => rfl
  | block _ f children =>
    congrArg (Settings.block f :: ·) (settingsOf_withFreshIdsEach source.next.2 children)

theorem settingsOf_withFreshIdsEach (source : IdSource) :
    ∀ steps : List Step, settingsOf (withFreshIdsEach source steps).1 = settingsOf steps
  | [] => rfl
  | s :: rest => by
    show settingsIn (s.withFreshIds source).1 ++
      settingsOf (withFreshIdsEach (s.withFreshIds source).2 rest).1 = settingsIn s ++ settingsOf rest
    rw [settingsIn_withFreshIds source s, settingsOf_withFreshIdsEach _ rest]

end

end Step

end StepTimer
