/-
A tree of steps as a table of nodes: each node knows its parent and the names of its children in
order, and the names of the top steps are kept beside the table. Looking a step up, asking for its
parent and building the nested steps again are the operations of this module; `WF` says when a table
is a tree.
-/
import StepTimer.Tree.Fresh

namespace StepTimer

/-- A step in the table: the step itself with its children taken out, and its place in the tree. -/
structure Node where
  step : Step
  parent : Option StepId
  children : List StepId
deriving Repr

/-- A tree of steps; every name is a key of the table at most once. -/
structure StepTree where
  nodes : List (StepId × Node) := []
  roots : List StepId := []
deriving Repr

namespace StepTree

def empty : StepTree := {}

def get? (t : StepTree) (id : StepId) : Option Node := t.nodes.lookup id

/-- Whether the tree has a step of the name. -/
def contains (t : StepTree) (id : StepId) : Bool := (t.get? id).isSome

/-- The names of all steps, in the order of the table. -/
def keys (t : StepTree) : List StepId := t.nodes.map (·.1)

def count (t : StepTree) : Nat := t.nodes.length

def isEmpty (t : StepTree) : Bool := t.nodes.isEmpty

/-- The name of the step that directly holds the step of the name. -/
def parentOf (t : StepTree) (id : StepId) : Option StepId := (t.get? id).bind (·.parent)

/-- The names beside and including the children of a parent, or the top steps. -/
def siblings (t : StepTree) : Option StepId → Option (List StepId)
  | none => some t.roots
  | some parent => (t.get? parent).map (·.children)

/-! ## Changing the table -/

def addNode (t : StepTree) (id : StepId) (n : Node) : StepTree :=
  { t with nodes := t.nodes ++ [(id, n)] }

/-- Drops the node of a name from the table. -/
def dropNode (t : StepTree) (id : StepId) : StepTree :=
  { t with nodes := t.nodes.filter fun e => e.1 ≠ id }

def modifyNode (t : StepTree) (id : StepId) (f : Node → Node) : StepTree :=
  { t with nodes := t.nodes.map fun e => if e.1 = id then (e.1, f e.2) else e }

/-- Changes the children of a parent, or the top steps. For a parent that the table does not have,
the top steps stand in. -/
def modifySiblings (t : StepTree) (parent : Option StepId) (f : List StepId → List StepId) :
    StepTree :=
  match parent with
  | none => { t with roots := f t.roots }
  | some parent =>
    if t.contains parent then t.modifyNode parent fun n => { n with children := f n.children }
    else { t with roots := f t.roots }

/-! ## Nested steps -/

mutual

/-- Adds a step with all steps below it to the table, under a parent whose children do not list it
yet, and gives its name. A name that the table already has is replaced with a fresh one. -/
def addSubtree (source : IdSource) (t : StepTree) (parent : Option StepId) :
    Step → StepId × StepTree × IdSource
  | .leaf id a =>
    let (name, source) := if t.contains id then source.next else (id, source)
    (name, t.addNode name ⟨(Step.leaf id a).bare.withId name, parent, []⟩, source)
  | .block id f children =>
    let (name, source) := if t.contains id then source.next else (id, source)
    let t := t.addNode name ⟨(Step.block id f children).bare.withId name, parent, []⟩
    let (t, source) := addChildren source t name children
    (name, t, source)

/-- Adds steps to the end of the children of a step. -/
def addChildren (source : IdSource) (t : StepTree) (parent : StepId) :
    List Step → StepTree × IdSource
  | [] => (t, source)
  | s :: rest =>
    let (id, t, source) := addSubtree source t (some parent) s
    addChildren source (t.modifySiblings (some parent) (· ++ [id])) parent rest

end

/-- Adds steps to the end of the top steps. -/
def addRoots (source : IdSource) (t : StepTree) : List Step → StepTree × IdSource
  | [] => (t, source)
  | s :: rest =>
    let (id, t, source) := addSubtree source t none s
    addRoots source { t with roots := t.roots ++ [id] } rest

/-- The tree of nested steps. A repeated name is replaced with a fresh one, so that no step is
lost. -/
def ofSteps (source : IdSource) (steps : List Step) : StepTree × IdSource :=
  addRoots source empty steps

/-- The nested step of a name, with the steps at most so many levels below it. -/
def build (t : StepTree) : Nat → StepId → Option Step
  | 0, _ => none
  | fuel + 1, id =>
    (t.get? id).map fun n => n.step.withChildren (n.children.filterMap (t.build fuel))

/-- A copy of the step of a name with all steps below it. No path is longer than the number of
steps. -/
def find? (t : StepTree) (id : StepId) : Option Step := t.build t.count id

/-- The nested steps of the tree, in order. -/
def toSteps (t : StepTree) : List Step := t.roots.filterMap t.find?

/-- Whether a step is met on the way up from a name, within so many parents. -/
def isAbove (t : StepTree) (ancestor : StepId) : Nat → StepId → Bool
  | 0, _ => false
  | fuel + 1, id =>
    match t.parentOf id with
    | none => false
    | some parent => if parent = ancestor then true else t.isAbove ancestor fuel parent

/-- Whether a step sits somewhere below another. -/
def isDescendant (t : StepTree) (ancestor id : StepId) : Bool := t.isAbove ancestor t.count id

/-! ## Trees -/

/-- The way up from a name leads to a top step. -/
inductive Rooted (t : StepTree) : StepId → Prop where
  | root {id : StepId} {n : Node} (h : t.get? id = some n) (top : n.parent = none) : Rooted t id
  | child {id parent : StepId} {n : Node} (h : t.get? id = some n) (up : n.parent = some parent)
    (above : Rooted t parent) : Rooted t id

/-- The names listed by the top steps and by all children. -/
def mentions (t : StepTree) : List StepId := t.roots ++ t.nodes.flatMap fun e => e.2.children

/-- The table is a tree. -/
structure WF (t : StepTree) : Prop where
  /-- No name is a key twice. -/
  nodupKeys : t.keys.Nodup
  /-- The lists of names hold every key exactly once and nothing else. -/
  mentioned : t.mentions.Perm t.keys
  /-- A top step has no parent. -/
  root_iff : ∀ id n, t.get? id = some n → (n.parent = none ↔ id ∈ t.roots)
  /-- A step has the parent whose children list it. -/
  child_iff : ∀ id n p, t.get? id = some n →
    (n.parent = some p ↔ ∃ m, t.get? p = some m ∧ id ∈ m.children)
  /-- A step in the table has its key for its name, and no children of its own. -/
  payload : ∀ id n, t.get? id = some n → n.step.id = id ∧ n.step.children = []
  /-- Only blocks have children. -/
  leafless : ∀ id n, t.get? id = some n → n.step.isContainer = false → n.children = []
  /-- Every way up ends at a top step. -/
  rooted : ∀ id, t.contains id = true → t.Rooted id

end StepTree

end StepTimer
