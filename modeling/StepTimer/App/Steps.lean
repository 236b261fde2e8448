/-
Editing the steps of a timer. A locked timer refuses every edit; an edit of a step or at a step that
is not there is refused, and so is a place that cannot hold steps.
-/
import StepTimer.App.Basic

namespace StepTimer.App

/-- An edit of a tree of steps, taking new names from a source. -/
abbrev TreeEdit := IdSource → StepTree → Except AppError (StepTree × IdSource)

/-- Edits the steps of an unlocked timer, and stores the result under a note of the action. -/
def editSteps (a : App) (id : TimerId) (action : String) (now : Instant) (edit : TreeEdit) :
    Outcome Timer :=
  match a.timer? id with
  | none => (.error (.timerNotFound id), a)
  | some t =>
    if t.locked then (.error (.locked t.id), a)
    else
      let (tree, ids) := StepTree.ofSteps a.ids t.steps
      match edit ids tree with
      | .error e => (.error e, { a with ids := ids })
      | .ok (tree, ids) =>
        let t := { t with steps := tree.toSteps }
        (({ a with ids := ids }.setTimer t).record action now).stored t

def requireStep (tree : StepTree) (step : StepId) : Except AppError Unit :=
  if tree.contains step then .ok () else .error (.stepNotFound step)

/-- Requires the step that a drop target names to be in the tree. -/
def requireTarget (tree : StepTree) : DropTarget → Except AppError Unit
  | .relative target _ => requireStep tree target
  | .rootStart => .ok ()
  | .rootEnd => .ok ()

/-- Inserts a new step; it and the steps it brings get fresh names. -/
def insertStep (a : App) (id : TimerId) (target : DropTarget) (kind : StepKind) (now : Instant) :
    Outcome Timer :=
  a.editSteps id "insert step" now fun ids tree => do
    requireTarget tree target
    let (step, ids) := (kind.named "").withFreshIds ids
    let (edited, ids) := tree.insertAt ids target step
    if edited.count = tree.count then .error .invalidPlacement else .ok (edited, ids)

/-- The kind with fresh names for the steps it brings. -/
def freshChildren (ids : IdSource) : StepKind → StepKind × IdSource
  | .action action => (.action action, ids)
  | .block frame children =>
    let (children, ids) := Step.withFreshIdsEach ids children
    (.block frame children, ids)

/-- Replaces the settings of a step, which keeps its name. -/
def replaceStep (a : App) (id : TimerId) (step : StepId) (kind : StepKind) (now : Instant) :
    Outcome Timer :=
  a.editSteps id "edit step" now fun ids tree => do
    requireStep tree step
    let (kind, ids) := freshChildren ids kind
    .ok (tree.replace ids step (kind.named step))

def deleteStep (a : App) (id : TimerId) (step : StepId) (now : Instant) : Outcome Timer :=
  a.editSteps id "delete step" now fun ids tree => do
    requireStep tree step
    .ok (tree.delete step, ids)

/-- Moves a step with the steps below it; it cannot be dropped at itself or below. -/
def moveStep (a : App) (id : TimerId) (step : StepId) (target : DropTarget) (now : Instant) :
    Outcome Timer :=
  a.editSteps id "move step" now fun ids tree => do
    requireStep tree step
    requireTarget tree target
    if tree.targetsSelf step target then .error .invalidPlacement
    else .ok (tree.moveTo step target, ids)

/-- Copies a step and the steps below it, under fresh names, to the place after it. -/
def duplicateStep (a : App) (id : TimerId) (step : StepId) (now : Instant) : Outcome Timer :=
  a.editSteps id "duplicate step" now fun ids tree => do
    requireStep tree step
    .ok (tree.duplicate ids step)

end StepTimer.App
