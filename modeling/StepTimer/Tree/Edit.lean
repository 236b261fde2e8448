/-
Edits of a tree of steps. Every edit gives a new tree; one that is refused gives the tree as it was.
The edits are also given on nested lists of steps.
-/
import StepTimer.Tree.Basic
import StepTimer.Tree.Target

namespace StepTimer

namespace StepTree

/-- Takes a step out of the list that names it; its node stays in the table. -/
def detach (t : StepTree) (id : StepId) : StepTree :=
  t.modifySiblings (t.parentOf id) fun names => names.filter fun other => other ≠ id

/-- Drops a step and the steps at most so many levels below it from the table. -/
def dropSubtree : Nat → StepTree → StepId → StepTree
  | 0, t, _ => t
  | fuel + 1, t, id =>
    match t.get? id with
    | none => t
    | some n => n.children.foldl (dropSubtree fuel) (t.dropNode id)

/-- Drops a step and all steps below it from the table. -/
def removeSubtree (t : StepTree) (id : StepId) : StepTree := dropSubtree t.count t id

/-- A place in a list of names: the parent whose children these are, none for the top steps, and the
index in the list. -/
structure Slot where
  parent : Option StepId
  index : Nat
deriving DecidableEq, Repr

/-- The place that a drop target means, if there is one. Only a block has a place inside. -/
def slotFor (t : StepTree) : DropTarget → Option Slot
  | .rootStart => some ⟨none, 0⟩
  | .rootEnd => some ⟨none, t.roots.length⟩
  | .relative target position => do
    let n ← t.get? target
    match position with
    | .inside => if n.step.isContainer then some ⟨some target, n.children.length⟩ else none
    | .before => do
      let i ← (← t.siblings n.parent).idxOf? target
      some ⟨n.parent, i⟩
    | .after => do
      let i ← (← t.siblings n.parent).idxOf? target
      some ⟨n.parent, i + 1⟩

/-- Whether the names in a step are pairwise distinct and none is in the tree. -/
def idsAreFree (t : StepTree) (s : Step) : Bool :=
  s.ids.Nodup && s.ids.all fun id => !t.contains id

/-- Puts a name into the list of a place. -/
def place (t : StepTree) (slot : Slot) (id : StepId) : StepTree :=
  t.modifySiblings slot.parent fun names => names.insertIdx slot.index id

def delete (t : StepTree) (id : StepId) : StepTree :=
  if t.contains id then (t.detach id).removeSubtree id else t

/-- Inserts a step with all steps below it at a drop target. Refused when the target is gone, when
it is inside a step that cannot hold children, and when a name is already used. -/
def insertAt (source : IdSource) (t : StepTree) (target : DropTarget) (s : Step) :
    StepTree × IdSource :=
  match t.slotFor target with
  | none => (t, source)
  | some slot =>
    if t.idsAreFree s then
      let (id, t, source) := t.addSubtree source slot.parent s
      (t.place slot id, source)
    else (t, source)

/-- Whether a drop target is a step itself or lies below it. -/
def targetsSelf (t : StepTree) (id : StepId) : DropTarget → Bool
  | .relative target _ => target = id || t.isDescendant id target
  | _ => false

/-- Moves a step with all steps below it to a drop target. Refused when the step is missing, when
the target is the step itself or below it, and when there is no such place. -/
def moveTo (t : StepTree) (id : StepId) (target : DropTarget) : StepTree :=
  if !t.contains id || t.targetsSelf id target || (t.slotFor target).isNone then t
  else
    let rest := t.detach id
    match rest.slotFor target with
    | none => t
    | some slot => (rest.place slot id).modifyNode id fun n => { n with parent := slot.parent }

/-- Copies a step and all steps below it, under fresh names, to the place right after it. -/
def duplicate (source : IdSource) (t : StepTree) (id : StepId) : StepTree × IdSource :=
  match t.find? id with
  | none => (t, source)
  | some found =>
    let (copy, source) := found.withFreshIds source
    t.insertAt source (.relative id .after) copy

/-- Puts another step in the place of one, under the name of the one. A block given without children
keeps those of the old step; otherwise the given children take their place. Refused when one of them
uses a name that is taken outside of the old children, or repeats a name in itself. -/
def replace (source : IdSource) (t : StepTree) (id : StepId) (replacement : Step) :
    StepTree × IdSource :=
  match t.get? id with
  | none => (t, source)
  | some n =>
    let swap (t : StepTree) :=
      t.modifyNode id fun n => { n with step := (replacement.withId id).bare }
    if replacement.isContainer && replacement.children.isEmpty then (swap t, source)
    else
      let cleared := (n.children.foldl removeSubtree t).modifyNode id fun n =>
        { n with children := [] }
      if replacement.children.all cleared.idsAreFree then
        let (t, source) := cleared.addChildren source id replacement.children
        (swap t, source)
      else (t, source)

end StepTree

namespace Step

/-! ## On nested lists -/

def delete (source : IdSource) (steps : List Step) (id : StepId) : List Step × IdSource :=
  let (t, source) := StepTree.ofSteps source steps
  ((t.delete id).toSteps, source)

/-- The steps with another one at a drop target. -/
def insertAt (source : IdSource) (steps : List Step) (target : DropTarget) (s : Step) :
    List Step × IdSource :=
  let (t, source) := StepTree.ofSteps source steps
  let (t, source) := t.insertAt source target s
  (t.toSteps, source)

/-- The steps with the one of a name moved to a drop target. -/
def moveTo (source : IdSource) (steps : List Step) (id : StepId) (target : DropTarget) :
    List Step × IdSource :=
  let (t, source) := StepTree.ofSteps source steps
  ((t.moveTo id target).toSteps, source)

end Step

end StepTimer
