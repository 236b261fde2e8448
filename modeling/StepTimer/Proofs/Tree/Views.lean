/-
The table and the nested steps say the same. Whether a step is there, what it is, what holds it and what is above it can
be read off the nested steps alone, and the table answers in the same way. So a well-formed tree is known by its nested
steps: another one that has them has the same nodes, and a tree that is made from the nested steps of one is that one
again.
-/
import StepTimer.Proofs.Step.Shape
import StepTimer.Proofs.Tree.Moves

namespace StepTimer

namespace StepTree

variable {t t' : StepTree} {a b p x : StepId} {steps : List Step}

/-! ## Counting -/

/-- The names of the nested steps are the keys, each of them once. -/
theorem WF.perm_keys (hw : t.WF) : (Step.idsOf t.toSteps).Perm t.keys :=
  (List.perm_ext_iff_of_nodup hw.nodup_toSteps hw.nodupKeys).2 fun _ => hw.mem_idsOf_toSteps

theorem WF.count_toSteps (hw : t.WF) : t.count = Step.count t.toSteps := by
  rw [count_eq_length_keys, ← Step.length_idsOf, hw.perm_keys.length_eq]

theorem WF.isEmpty_iff (hw : t.WF) : t.isEmpty = true ↔ t.toSteps = [] := by
  rw [← Step.count_eq_zero_iff, ← hw.count_toSteps, isEmpty, List.isEmpty_iff, count, List.length_eq_zero_iff]

theorem WF.contains_iff_isSome (hw : t.WF) : t.contains a = true ↔ (t.find? a).isSome = true := by
  rw [← mem_keys, Option.isSome_iff_ne_none, ne_eq, hw.find?_eq_none_iff, not_not]

/-! ## Parents and ancestors -/

/-- The node of a step that is found, as the nested step has it. -/
theorem WF.get?_of_find? {s : Step} (hw : t.WF) (h : t.find? x = some s) :
    t.get? x = some ⟨s.bare, t.parentOf x, s.children.map Step.id⟩ := by
  obtain ⟨rfl, bears⟩ := hw.bears_of_find? h
  exact bears.get?

/-- The parent of a step is the one step that has it among its children. -/
theorem WF.parentOf_eq_some_iff (hw : t.WF) :
    t.parentOf x = some p ↔ ∃ s, t.find? p = some s ∧ x ∈ s.children.map Step.id := by
  constructor
  · intro h
    obtain ⟨n, hn, up⟩ := get?_of_parentOf h
    obtain ⟨m, hm, listed⟩ := (hw.child_iff x n p hn).1 up
    obtain ⟨s, hs, -⟩ := hw.bears_find? (mem_keys_of_get? hm)
    rw [hw.get?_of_find? hs] at hm
    cases hm
    exact ⟨s, hs, listed⟩
  · rintro ⟨s, hs, listed⟩
    exact hw.loose.child p _ (hw.get?_of_find? hs) x listed

/-- A step without a parent is a top step or is not there. -/
theorem WF.parentOf_eq_none_iff (hw : t.WF) :
    t.parentOf x = none ↔ x ∈ t.toSteps.map Step.id ∨ t.find? x = none := by
  rw [hw.bears_toSteps.1]
  constructor
  · intro top
    by_cases known : x ∈ t.keys
    · obtain ⟨n, hn⟩ := contains_iff.1 (mem_keys.1 known)
      rw [parentOf_of_get? hn] at top
      exact .inl ((hw.root_iff x n hn).1 top)
    · exact .inr (hw.find?_eq_none_iff.2 known)
  · rintro (top | missing)
    · exact hw.loose.root x top
    · rw [parentOf, get?_eq_none (hw.find?_eq_none_iff.1 missing)]
      rfl

/-- An ancestor is met above a step, and it is not the step itself. -/
theorem WF.isDescendant_cases (hw : t.WF) (h : t.isDescendant a b = true) : a ∈ t.keys ∧ b ≠ a := by
  have known : b ∈ t.keys := by
    by_contra unknown
    have climbs := hw.climbs a b
    rw [h, parentOf, get?_eq_none unknown] at climbs
    cases climbs
  obtain ⟨l, way⟩ := hw.way known
  have above : a ∈ l.tail := (way.isAbove_iff way.length_le).1 h
  have distinct := way.nodup
  obtain ⟨up, rfl⟩ := way.head
  refine ⟨way.subset_keys a (List.mem_of_mem_tail above), ?_⟩
  rintro rfl
  exact (List.nodup_cons.1 distinct).1 above

/-- The descendants of a step are the steps below it in its nested form. -/
theorem WF.isDescendant_iff (hw : t.WF) :
    t.isDescendant a b = true ↔ ∃ s, t.find? a = some s ∧ b ∈ Step.idsOf s.children := by
  constructor
  · intro h
    obtain ⟨known, other⟩ := hw.isDescendant_cases h
    obtain ⟨s, hs, rfl, -⟩ := hw.bears_find? known
    have inside := (hw.mem_ids_iff hs).2 (.inr h)
    rw [Step.ids_eq_cons] at inside
    exact ⟨s, hs, (List.mem_cons.1 inside).resolve_left other⟩
  · rintro ⟨s, hs, below⟩
    obtain ⟨rfl, -⟩ := hw.bears_of_find? hs
    have distinct := Step.nodup_ids_of_find? hw.nodup_toSteps (hw.find?_toSteps hs)
    have inside : b ∈ s.ids := by rw [Step.ids_eq_cons]; exact List.mem_cons_of_mem _ below
    rw [Step.ids_eq_cons] at distinct
    refine ((hw.mem_ids_iff hs).1 inside).resolve_left ?_
    rintro rfl
    exact (List.nodup_cons.1 distinct).1 below

/-! ## The tree of the nested steps -/

/-- Trees with the same nested steps have the same nodes under the same names. -/
theorem WF.get?_congr (hw : t.WF) (hw' : t'.WF) (same : t'.toSteps = t.toSteps) (x : StepId) :
    t'.get? x = t.get? x := by
  have find : ∀ y, t'.find? y = t.find? y := fun y => by rw [hw'.find?_eq, hw.find?_eq, same]
  have parent : t'.parentOf x = t.parentOf x := by
    ext p
    rw [hw'.parentOf_eq_some_iff, hw.parentOf_eq_some_iff, find]
  cases found : t.find? x with
  | none =>
    rw [get?_eq_none (hw.find?_eq_none_iff.1 found), get?_eq_none (hw'.find?_eq_none_iff.1 (by rw [find, found]))]
  | some s => rw [hw.get?_of_find? found, hw'.get?_of_find? (by rw [find, found]), parent]

/-- The tree made from the nested steps of a tree is the same tree, and no name is drawn for it. -/
theorem WF.ofSteps_toSteps (hw : t.WF) (source : IdSource) :
    (ofSteps source t.toSteps).2 = source ∧ (ofSteps source t.toSteps).1.roots = t.roots ∧
      ∀ x, (ofSteps source t.toSteps).1.get? x = t.get? x := by
  obtain ⟨made, same, undrawn⟩ := ofSteps_of_nodup hw.nodup_toSteps source
  refine ⟨undrawn, ?_, hw.get?_congr made same⟩
  rw [← made.bears_toSteps.1, same, hw.bears_toSteps.1]

/-- The table of a tree with a history and its nested steps answer alike: which step has a name and whether there is
one, how many there are, which step holds another one, and what lies below what. The tree made from the nested steps is
the tree again. -/
theorem views_agree (h : Edited steps t) (a b : StepId) :
    t.find? a = Step.find? a t.toSteps ∧
    (t.contains a = true ↔ (Step.find? a t.toSteps).isSome = true) ∧
    t.count = Step.count t.toSteps ∧ (t.isEmpty = true ↔ t.toSteps = []) ∧
    (∀ p, t.parentOf a = some p ↔ ∃ s, Step.find? p t.toSteps = some s ∧ a ∈ s.children.map Step.id) ∧
    (t.parentOf a = none ↔ a ∈ t.toSteps.map Step.id ∨ Step.find? a t.toSteps = none) ∧
    (t.isDescendant a b = true ↔ ∃ s, Step.find? a t.toSteps = some s ∧ b ∈ Step.idsOf s.children) ∧
    ∀ source, (ofSteps source t.toSteps).2 = source ∧ (ofSteps source t.toSteps).1.roots = t.roots ∧
      ∀ x, (ofSteps source t.toSteps).1.get? x = t.get? x := by
  have hw := h.wf
  simp only [← hw.find?_eq]
  exact ⟨trivial, hw.contains_iff_isSome, hw.count_toSteps, hw.isEmpty_iff, fun p => hw.parentOf_eq_some_iff,
    hw.parentOf_eq_none_iff, hw.isDescendant_iff, hw.ofSteps_toSteps⟩

/-- A loop is moved into another one whose step has its name too; what is below and above is read off the nested
steps. -/
theorem views_agree_loops :
    let steps := [Step.block "a" (.loop .infinite) [.leaf "a" .unknown],
      .block "b" (.loop .infinite) [.leaf "c" .unknown]]
    let t := ((Edit.moveTo "b" (.relative "a" .inside)).apply (dollars 2) (ofSteps (dollars 1) steps).1).1
    Edited steps t ∧ t.count = 4 ∧ t.isDescendant "a" "c" = true ∧ t.isDescendant "b" "a" = false ∧
      t.parentOf "c" = some "b" ∧ (ofSteps (dollars 1) t.toSteps).1.get? "c" = t.get? "c" := by
  intro steps t
  have made : Edited steps (ofSteps (dollars 1) steps).1 := .made _ (dollars_fresh (by decide))
  have done : Edited steps t := made.edited (.moveTo "b" (.relative "a" .inside)) _ (dollars_fresh (by decide))
  have inner : Step.find? "b" t.toSteps = some (.block "b" (.loop .infinite) [.leaf "c" .unknown]) := by rfl
  obtain ⟨-, -, count, -, -, -, below, again⟩ := views_agree done "a" "c"
  obtain ⟨-, -, -, -, -, -, above, -⟩ := views_agree done "b" "a"
  obtain ⟨-, -, -, -, parent, -⟩ := views_agree done "c" "c"
  refine ⟨done, count.trans (by rfl), below.2 ⟨_, rfl, by decide⟩, ?_, (parent "b").2 ⟨_, inner, by decide⟩,
    (again _).2.2 "c"⟩
  rw [Bool.eq_false_iff, ne_eq, above]
  rintro ⟨s, hs, hb⟩
  rw [inner] at hs
  cases hs
  exact absurd hb (by decide)

end StepTree

end StepTimer
