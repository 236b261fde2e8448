/-
The shape of nested steps: what is left when the names are taken away, so the settings, their order and which step is
in which. A copy under fresh names has the shape of the original, and its names are the next ones of the source, one
for each step.
-/
import StepTimer.Tree.Fresh
import Mathlib.Data.List.Nodup

namespace StepTimer

namespace Step

mutual

/-- A step without its name and the names of the steps below it. -/
def unnamed : Step → Step
  | leaf _ a => leaf "" a
  | block _ f children => block "" f (unnamedEach children)

/-- Steps without their names and the names of the steps below them. -/
def unnamedEach : List Step → List Step
  | [] => []
  | s :: rest => unnamed s :: unnamedEach rest

end

variable {steps : List Step} {used : List StepId} {source : IdSource}

mutual

theorem size_unnamed : ∀ s : Step, s.unnamed.size = s.size
  | leaf _ _ => rfl
  | block _ _ children => by rw [unnamed, size, size, count_unnamedEach children]

theorem count_unnamedEach : ∀ steps : List Step, count (unnamedEach steps) = count steps
  | [] => rfl
  | s :: rest => by rw [unnamedEach, count, count, size_unnamed s, count_unnamedEach rest]

end

mutual

/-- A step has a name for each step in it. -/
theorem length_ids : ∀ s : Step, s.ids.length = s.size
  | leaf _ _ => rfl
  | block _ _ children => by rw [ids, List.length_cons, length_idsOf children, size, Nat.add_comm]

theorem length_idsOf : ∀ steps : List Step, (idsOf steps).length = count steps
  | [] => rfl
  | s :: rest => by rw [idsOf, List.length_append, length_ids s, length_idsOf rest, count]

end

theorem count_eq_zero_iff : count steps = 0 ↔ steps = [] := by
  cases steps with
  | nil => exact ⟨fun _ => rfl, fun _ => rfl⟩
  | cons s rest =>
    have own : 0 < s.size := by
      rw [← length_ids]
      exact List.length_pos_of_mem s.id_mem_ids
    rw [count]
    simp only [reduceCtorEq, iff_false]
    omega

/-! ## Fresh copies -/

theorem withFreshIds_block (source : IdSource) (id : StepId) (f : Frame) (children : List Step) :
    (block id f children).withFreshIds source =
      (block source.next.1 f (withFreshIdsEach source.next.2 children).1,
        (withFreshIdsEach source.next.2 children).2) := by
  rw [withFreshIds]

theorem withFreshIdsEach_cons (source : IdSource) (s : Step) (rest : List Step) :
    withFreshIdsEach source (s :: rest) =
      ((s.withFreshIds source).1 :: (withFreshIdsEach (s.withFreshIds source).2 rest).1,
        (withFreshIdsEach (s.withFreshIds source).2 rest).2) := by
  rw [withFreshIdsEach]

mutual

theorem unnamed_withFreshIds (source : IdSource) : ∀ s : Step, (s.withFreshIds source).1.unnamed = s.unnamed
  | leaf _ _ => rfl
  | block _ f children => by
    rw [withFreshIds_block, unnamed, unnamed, unnamedEach_withFreshIdsEach source.next.2 children]

theorem unnamedEach_withFreshIdsEach (source : IdSource) :
    ∀ steps : List Step, unnamedEach (withFreshIdsEach source steps).1 = unnamedEach steps
  | [] => rfl
  | s :: rest => by
    rw [withFreshIdsEach_cons, unnamedEach, unnamedEach, unnamed_withFreshIds source s,
      unnamedEach_withFreshIdsEach _ rest]

end

mutual

/-- A copy takes as many names from the source as there are steps in it, in order. -/
theorem ids_withFreshIds (source : IdSource) : ∀ s : Step,
    (s.withFreshIds source).1.ids = (List.range' source.issued s.size).map source.issue ∧
      (s.withFreshIds source).2 = { source with issued := source.issued + s.size }
  | leaf _ _ => ⟨rfl, rfl⟩
  | block _ f children => by
    obtain ⟨below, after⟩ := idsOf_withFreshIdsEach source.next.2 children
    -- the block takes the first name, and the steps below it the ones after that
    rw [withFreshIds_block, ids, below, after, size, Nat.add_comm 1 (count children), List.range'_succ]
    refine ⟨rfl, ?_⟩
    simp only [IdSource.next, IdSource.mk.injEq, true_and]
    omega

theorem idsOf_withFreshIdsEach (source : IdSource) : ∀ steps : List Step,
    idsOf (withFreshIdsEach source steps).1 = (List.range' source.issued (count steps)).map source.issue ∧
      (withFreshIdsEach source steps).2 = { source with issued := source.issued + count steps }
  | [] => ⟨rfl, rfl⟩
  | s :: rest => by
    obtain ⟨first, src⟩ := ids_withFreshIds source s
    obtain ⟨others, after⟩ := idsOf_withFreshIdsEach { source with issued := source.issued + s.size } rest
    rw [withFreshIdsEach_cons, idsOf, first, src, others, after, count]
    refine ⟨?_, by simp only [IdSource.mk.injEq, true_and]; omega⟩
    rw [← List.map_append, List.range'_append_1]

end

theorem nodup_ids_withFreshIds (hf : source.Fresh used) (s : Step) : (s.withFreshIds source).1.ids.Nodup := by
  rw [(ids_withFreshIds source s).1]
  exact (List.nodup_range' ..).map fun m n => hf.injective m n

theorem not_mem_of_mem_ids_withFreshIds (hf : source.Fresh used) (s : Step) :
    ∀ x ∈ (s.withFreshIds source).1.ids, x ∉ used := by
  rw [(ids_withFreshIds source s).1]
  intro x hx
  obtain ⟨n, hn, rfl⟩ := List.mem_map.1 hx
  exact hf.unused n (List.mem_range'_1.1 hn).1

end Step

end StepTimer
