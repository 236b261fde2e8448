/-
Strict edits. A change of the children of a parent that the table does not have falls back on the top
names; the strict forms of the edits have no such fall-back and no answer in that case. On a
well-formed tree every strict edit has an answer, that of the edit itself: the fall-back is never
taken.
-/
import StepTimer.Proofs.Tree.Edits

namespace StepTimer

namespace StepTree

variable {t : StepTree} {id x p : StepId} {source : IdSource}

/-- Changes the children of a parent, or the top names; there must be such a parent. -/
def modifySiblings? (t : StepTree) (parent : Option StepId) (f : List StepId → List StepId) : Option StepTree :=
  match parent with
  | none => some { t with roots := f t.roots }
  | some p => if t.contains p then some (t.modifyNode p (Node.mapChildren f)) else none

mutual

/-- Adds a step with all steps below it, strictly. -/
def addSubtree? (source : IdSource) (t : StepTree) (parent : Option StepId) :
    Step → Option (StepId × StepTree × IdSource)
  | .leaf id a =>
    let (id, source) := t.nameFor source id
    some (id, t.addNode id ⟨.leaf id a, parent, []⟩, source)
  | .block id f children =>
    let (id, source) := t.nameFor source id
    (addChildren? source (t.addNode id ⟨.block id f [], parent, []⟩) id children).map (id, ·)

/-- Adds steps to the end of the children of a step, strictly. -/
def addChildren? (source : IdSource) (t : StepTree) (parent : StepId) : List Step → Option (StepTree × IdSource)
  | [] => some (t, source)
  | s :: rest =>
    (addSubtree? source t (some parent) s).bind fun (id, t, source) =>
      (t.modifySiblings? (some parent) (· ++ [id])).bind fun t => addChildren? source t parent rest

end

/-- Adds steps to the end of the top steps, strictly. -/
def addRoots? (source : IdSource) (t : StepTree) : List Step → Option (StepTree × IdSource)
  | [] => some (t, source)
  | s :: rest =>
    (addSubtree? source t none s).bind fun (id, t, source) =>
      (t.modifySiblings? none (· ++ [id])).bind fun t => addRoots? source t rest

/-- The tree of nested steps, made strictly. -/
def ofSteps? (source : IdSource) (steps : List Step) : Option (StepTree × IdSource) := addRoots? source empty steps

/-- Takes a step out of the list that names it, strictly. -/
def detach? (t : StepTree) (id : StepId) : Option StepTree :=
  t.modifySiblings? (t.parentOf id) fun names => names.filter fun other => other ≠ id

/-- Puts a name into the list of a place, strictly. -/
def place? (t : StepTree) (slot : Slot) (id : StepId) : Option StepTree :=
  t.modifySiblings? slot.parent fun names => names.insertIdx slot.index id

/-- Removes a step together with its children, strictly. -/
def delete? (t : StepTree) (id : StepId) : Option StepTree :=
  if t.contains id then (t.detach? id).map fun t => t.removeSubtree id else some t

/-- Inserts a step with all steps below it at a drop target, strictly. -/
def insertAt? (source : IdSource) (t : StepTree) (target : DropTarget) (s : Step) : Option (StepTree × IdSource) :=
  match t.slotFor target with
  | none => some (t, source)
  | some slot =>
    if t.idsAreFree s then
      (t.addSubtree? source slot.parent s).bind fun (id, t, source) =>
        (t.place? slot id).map fun t => (t, source)
    else some (t, source)

/-- Moves a step with all steps below it to a drop target, strictly. -/
def moveTo? (t : StepTree) (id : StepId) (target : DropTarget) : Option StepTree :=
  if !t.contains id || t.targetsSelf id target || (t.slotFor target).isNone then some t
  else (t.detach? id).bind fun rest =>
    match rest.slotFor target with
    | none => some t
    | some slot => (rest.place? slot id).map fun t => t.modifyNode id fun n => { n with parent := slot.parent }

/-- Copies a step and all steps below it to the place right after it, strictly. -/
def duplicate? (source : IdSource) (t : StepTree) (id : StepId) : Option (StepTree × IdSource) :=
  match t.find? id with
  | none => some (t, source)
  | some found =>
    let (copy, source) := found.withFreshIds source
    t.insertAt? source (.relative id .after) copy

/-- Puts another step in the place of one, strictly. -/
def replace? (source : IdSource) (t : StepTree) (id : StepId) (replacement : Step) : Option (StepTree × IdSource) :=
  match t.get? id with
  | none => some (t, source)
  | some n =>
    let swap (t : StepTree) := t.modifyNode id fun n => { n with step := (replacement.withId id).bare }
    if replacement.isContainer && replacement.children.isEmpty then some (swap t, source)
    else
      let cleared := (n.children.foldl removeSubtree t).modifyNode id fun n => { n with children := [] }
      if replacement.children.all cleared.idsAreFree then
        (cleared.addChildren? source id replacement.children).map fun (t, source) => (swap t, source)
      else some (t, source)

/-! ## Strict edits answer -/

theorem modifySiblings?_eq {parent : Option StepId} {f : List StepId → List StepId}
    (h : ∀ p, parent = some p → t.contains p = true) :
    t.modifySiblings? parent f = some (t.modifySiblings parent f) := by
  cases parent with
  | none => rfl
  | some p =>
    unfold modifySiblings?
    simp only [if_pos (h p rfl), modifySiblings_some (h p rfl)]

theorem contains_addNode {n : Node} (h : t.contains x = true) : (t.addNode id n).contains x = true := by
  rw [← mem_keys] at h ⊢
  rw [keys_addNode]; exact List.mem_append_left _ h

theorem contains_modifySiblings {parent : Option StepId} {f : List StepId → List StepId} :
    (t.modifySiblings parent f).contains x = t.contains x := by
  cases parent with
  | none => rfl
  | some p =>
    by_cases hp : t.contains p = true
    · rw [modifySiblings_some hp, contains_modifyNode]
    · rw [modifySiblings_missing hp]; rfl

mutual

theorem contains_addSubtree (source : IdSource) (t : StepTree) (parent : Option StepId) (x : StepId)
    (h : t.contains x = true) : ∀ s : Step, (t.addSubtree source parent s).2.1.contains x = true
  | .leaf id a => by rw [addSubtree_leaf]; exact contains_addNode h
  | .block id f children => by
    rw [addSubtree_block]
    exact contains_addChildren _ _ _ x (contains_addNode h) children

theorem contains_addChildren (source : IdSource) (t : StepTree) (p : StepId) (x : StepId)
    (h : t.contains x = true) : ∀ children : List Step, (t.addChildren source p children).1.contains x = true
  | [] => by rw [addChildren]; exact h
  | s :: rest => by
    rw [addChildren_cons]
    refine contains_addChildren _ _ p x ?_ rest
    rw [contains_modifySiblings]; exact contains_addSubtree source t (some p) x h s

end

mutual

theorem addSubtree?_eq (source : IdSource) (t : StepTree) (parent : Option StepId) :
    ∀ s : Step, t.addSubtree? source parent s = some (t.addSubtree source parent s)
  | .leaf id a => by rw [addSubtree_leaf, addSubtree?]
  | .block id f children => by
    have h : (t.addNode (t.nameFor source id).1 ⟨.block (t.nameFor source id).1 f [], parent, []⟩).contains
        (t.nameFor source id).1 = true := by
      rw [← mem_keys, keys_addNode]; simp
    rw [addSubtree_block, addSubtree?]
    simp only
    rw [addChildren?_eq _ _ _ h children]; rfl

theorem addChildren?_eq (source : IdSource) (t : StepTree) (p : StepId) (h : t.contains p = true) :
    ∀ children : List Step, t.addChildren? source p children = some (t.addChildren source p children)
  | [] => by rw [addChildren, addChildren?]
  | s :: rest => by
    have h₁ := contains_addSubtree source t (some p) p h s
    rw [addChildren_cons, addChildren?, addSubtree?_eq source t (some p) s]
    simp only [Option.bind_some]
    rw [modifySiblings?_eq (by rintro _ ⟨⟩; exact h₁), Option.bind_some]
    exact addChildren?_eq _ _ p (by rw [contains_modifySiblings]; exact h₁) rest

end

theorem addRoots?_eq : ∀ (steps : List Step) (source : IdSource) (t : StepTree),
    t.addRoots? source steps = some (t.addRoots source steps)
  | [], source, t => by rw [addRoots, addRoots?]
  | s :: rest, source, t => by
    rw [addRoots_cons, addRoots?, addSubtree?_eq source t none s]
    simp only [Option.bind_some]
    rw [modifySiblings?_eq (by rintro _ ⟨⟩), Option.bind_some]
    exact addRoots?_eq rest _ _

theorem ofSteps?_eq (source : IdSource) (steps : List Step) : ofSteps? source steps = some (ofSteps source steps) :=
  addRoots?_eq steps source empty

theorem detach?_eq (hw : t.WF) (id : StepId) : t.detach? id = some (t.detach id) := by
  refine modifySiblings?_eq fun p hp => ?_
  obtain ⟨n, hn, hnp⟩ := get?_of_parentOf hp
  obtain ⟨m, hm, -⟩ := (hw.child_iff id n p hn).1 hnp
  exact contains_of_get? hm

theorem place?_eq {slot : Slot} (h : ∀ p, slot.parent = some p → t.contains p = true) :
    t.place? slot id = some (t.place slot id) := modifySiblings?_eq h

theorem Slot.Fits.contains {slot : Slot} (fits : slot.Fits t) (h : slot.parent = some p) : t.contains p = true := by
  obtain ⟨m, hm, -⟩ := fits.block p h
  exact contains_of_get? hm

theorem delete?_eq (hw : t.WF) (id : StepId) : t.delete? id = some (t.delete id) := by
  unfold delete? delete
  split
  · rw [detach?_eq hw]; rfl
  · rfl

theorem insertAt?_eq (hw : t.WF) (source : IdSource) (target : DropTarget) (s : Step) :
    t.insertAt? source target s = some (t.insertAt source target s) := by
  unfold insertAt? insertAt
  rcases hslot : t.slotFor target with _ | slot
  · rfl
  · simp only
    split
    · have fits := slotFor_fits hw.onlyBlocks hslot
      rw [addSubtree?_eq, Option.bind_some]
      rw [place?_eq fun p hp => contains_addSubtree source t slot.parent p (fits.contains hp) s]; rfl
    · rfl

theorem moveTo?_eq (hw : t.WF) (id : StepId) (target : DropTarget) :
    t.moveTo? id target = some (t.moveTo id target) := by
  unfold moveTo? moveTo
  split
  · rfl
  · rw [detach?_eq hw, Option.bind_some]
    rcases hslot : (t.detach id).slotFor target with _ | slot
    · simp only [hslot]
    · simp only [hslot]
      have fits := slotFor_fits (hw.onlyBlocks.detach id) hslot
      rw [place?_eq fun p hp => fits.contains hp]; rfl

theorem duplicate?_eq (hw : t.WF) (source : IdSource) (id : StepId) :
    t.duplicate? source id = some (t.duplicate source id) := by
  unfold duplicate? duplicate
  rcases t.find? id with _ | found
  · rfl
  · exact insertAt?_eq hw _ _ _

theorem replace?_eq (hw : t.WF) (source : IdSource) (id : StepId) (replacement : Step) :
    t.replace? source id replacement = some (t.replace source id replacement) := by
  unfold replace? replace
  rcases hn : t.get? id with _ | n
  · rfl
  · obtain ⟨-, -, hg, -⟩ := cleared hw hn
    simp only
    split
    · rfl
    · split
      · rw [addChildren?_eq _ _ _ (contains_of_get? hg)]; rfl
      · rfl

end StepTree

end StepTimer
