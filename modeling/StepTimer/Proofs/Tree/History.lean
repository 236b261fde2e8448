/-
Trees with a history: a tree is made from nested steps and then edited any number of times, with any
arguments, each edit taking its fresh names from a source of its own. The headline theorem says that
every such tree is well-formed, so that climbing and building in it end and no edit of it ever meets
a parent that is gone.
-/
import StepTimer.Proofs.Tree.Strict

namespace StepTimer

/-- The name that a drop target gives. -/
def DropTarget.names : DropTarget → List StepId
  | .rootStart | .rootEnd => []
  | .relative target _ => [target]

namespace StepTree

/-- An edit of a tree with its arguments. An insertion or a move next to a step is one to a relative
drop target. -/
inductive Edit where
  | delete (id : StepId)
  | insertAt (target : DropTarget) (step : Step)
  | moveTo (id : StepId) (target : DropTarget)
  | duplicate (id : StepId)
  | replace (id : StepId) (step : Step)

namespace Edit

/-- The names in the arguments of an edit. -/
def names : Edit → List StepId
  | delete id => [id]
  | insertAt target s => target.names ++ s.ids
  | moveTo id target => id :: target.names
  | duplicate id => [id]
  | replace id s => id :: Step.idsOf s.children

/-- The tree after an edit, and the source after it. -/
def apply (source : IdSource) (t : StepTree) : Edit → StepTree × IdSource
  | delete id => (t.delete id, source)
  | insertAt target s => t.insertAt source target s
  | moveTo id target => (t.moveTo id target, source)
  | duplicate id => t.duplicate source id
  | replace id s => t.replace source id s

/-- The same, strictly. -/
def applied? (source : IdSource) (t : StepTree) : Edit → Option (StepTree × IdSource)
  | delete id => (t.delete? id).map fun t => (t, source)
  | insertAt target s => t.insertAt? source target s
  | moveTo id target => (t.moveTo? id target).map fun t => (t, source)
  | duplicate id => t.duplicate? source id
  | replace id s => t.replace? source id s

end Edit

/-- A tree made from nested steps and edited; the fresh names of each edit are not among the names of
the tree and of the arguments. -/
inductive Edited (steps : List Step) : StepTree → Prop where
  | made (source : IdSource) (fresh : source.Fresh (Step.idsOf steps)) : Edited steps (ofSteps source steps).1
  | edited {t : StepTree} (before : Edited steps t) (e : Edit) (source : IdSource)
      (fresh : source.Fresh (t.keys ++ e.names)) : Edited steps (e.apply source t).1

variable {t : StepTree} {steps : List Step} {source : IdSource}

theorem wf_apply (hw : t.WF) (e : Edit) (hf : source.Fresh (t.keys ++ e.names)) : (e.apply source t).1.WF := by
  cases e with
  | delete id => exact wf_delete hw id
  | insertAt target s =>
    refine wf_insertAt hw target s (hf.mono fun x hx => ?_)
    exact List.mem_append.2 ((List.mem_append.1 hx).imp_right fun h => List.mem_append_right _ h)
  | moveTo id target => exact wf_moveTo hw id target
  | duplicate id => exact wf_duplicate hw id (hf.mono fun x hx => List.mem_append_left _ hx)
  | replace id s =>
    refine wf_replace hw id s (hf.mono fun x hx => ?_)
    exact List.mem_append.2 ((List.mem_append.1 hx).imp_right fun h => List.mem_cons_of_mem _ h)

theorem Edited.wf (h : Edited steps t) : t.WF := by
  induction h with
  | made source fresh => exact wf_ofSteps steps fresh
  | edited _ e source fresh ih => exact wf_apply ih e fresh

theorem applied?_eq (hw : t.WF) (e : Edit) (source : IdSource) : e.applied? source t = some (e.apply source t) := by
  cases e with
  | delete id =>
    show (t.delete? id).map (fun t => (t, source)) = _
    rw [delete?_eq hw]; rfl
  | insertAt target s => exact insertAt?_eq hw source target s
  | moveTo id target =>
    show (t.moveTo? id target).map (fun t => (t, source)) = _
    rw [moveTo?_eq hw]; rfl
  | duplicate id => exact duplicate?_eq hw source id
  | replace id s => exact replace?_eq hw source id s

/-- Every tree with a history is well-formed, and the step in a node has the key for its name and no
nested steps: the making of a tree and every edit take them out and keep them in the table. Hence the climb in search of an ancestor and the building of a nested step end, with
the answers of `isDescendant` and `find?`, and neither the making of a tree nor any edit of it falls
back on the top names for a parent that is gone. -/
theorem edited_wellFormed (h : Edited steps t) :
    t.WF ∧ (∀ id n, t.get? id = some n → n.step.id = id ∧ n.step.children = []) ∧
      (∀ ancestor id, t.Climbs ancestor (t.parentOf id) (t.isDescendant ancestor id)) ∧
      (∀ id, t.Builds id (t.find? id)) ∧
      (∀ source, ofSteps? source steps = some (ofSteps source steps)) ∧
      ∀ (e : Edit) (source : IdSource), e.applied? source t = some (e.apply source t) := by
  have hw := h.wf
  exact ⟨hw, hw.payload, hw.climbs, hw.builds, fun source => ofSteps?_eq source steps, applied?_eq hw⟩

/-- Names made of dollar signs, each one longer than the last and all longer than `shortest`. -/
def dollars (shortest : Nat) : IdSource := ⟨fun n => String.ofList (List.replicate (shortest + n + 1) '$'), 0⟩

theorem dollars_fresh {shortest : Nat} {used : List String} (h : ∀ x ∈ used, x.length ≤ shortest) :
    (dollars shortest).Fresh used := by
  refine ⟨fun m n hmn => ?_, fun n _ hn => ?_⟩
  · have := congrArg String.length hmn
    simpa [dollars] using this
  · have := h _ hn
    simp only [dollars, String.length_ofList, List.length_replicate] at this
    omega

/-- A loop and the step in it have one name, so the step in the table has another one; a further step is
moved into the loop, and the loop is copied. -/
theorem edited_wellFormed_repeated :
    let steps := [Step.block "a" (.loop .infinite) [.leaf "a" .unknown], .leaf "b" .unknown]
    let t := ((Edit.moveTo "b" (.relative "a" .inside)).apply (dollars 2) (ofSteps (dollars 1) steps).1).1
    let copied := ((Edit.duplicate "a").apply (dollars 2) t).1
    Edited steps copied ∧ copied.keys = ["a", "$$", "b", "$$$", "$$$$", "$$$$$"] ∧ copied.WF ∧
      ∃ n, copied.get? "$$" = some n ∧ n.step.id = "$$" ∧ (copied.find? "$$").map Step.id = some "$$" := by
  intro steps t copied
  have made : Edited steps (ofSteps (dollars 1) steps).1 := .made _ (dollars_fresh (by decide))
  have moved : Edited steps t := made.edited (.moveTo "b" (.relative "a" .inside)) _ (dollars_fresh (by decide))
  have done : Edited steps copied := moved.edited (.duplicate "a") _ (dollars_fresh (by decide))
  obtain ⟨hw, payload, -⟩ := edited_wellFormed done
  obtain ⟨n, hn⟩ : ∃ n, copied.get? "$$" = some n := contains_iff.1 (by decide)
  exact ⟨done, by decide, hw, n, hn, (payload "$$" n hn).1, by decide⟩

end StepTree

end StepTimer
