/-
Where a step sits. A drop target is met in nested steps when the step stands first or last in the list, right before or
after another one in some list of siblings, or last among the children of a step. A step that is put at a target which
has a place there sits at it, and all the steps that were there before are found as they were but for the new one among
their children.
-/
import StepTimer.Proofs.Tree.Views

namespace StepTimer

/-- The names of a list of siblings: the top steps, or the children of a step. -/
inductive Step.Row (steps : List Step) : List StepId → Prop where
  | top : Row steps (steps.map Step.id)
  | below {p : StepId} {s : Step} (h : Step.find? p steps = some s) : Row steps (s.children.map Step.id)

namespace DropTarget

variable {y : StepId} {names : List StepId}

/-- A step of a name sits at a drop target. -/
def Seats (target : DropTarget) (x : StepId) (steps : List Step) : Prop :=
  match target with
  | rootStart => ∃ rest, steps.map Step.id = x :: rest
  | rootEnd => ∃ rest, steps.map Step.id = rest ++ [x]
  | relative y .before => ∃ l r, Step.Row steps (l ++ x :: y :: r)
  | relative y .after => ∃ l r, Step.Row steps (l ++ y :: x :: r)
  | relative y .inside => ∃ s rest, Step.find? y steps = some s ∧ s.children.map Step.id = rest ++ [x]

/-- Whether a drop target has a place among nested steps: the step that it names is there, and can hold children if the
target is inside of it. -/
def Fits (target : DropTarget) (steps : List Step) : Prop :=
  ∀ y position, target = relative y position →
    ∃ s, Step.find? y steps = some s ∧ (position = .inside → s.isContainer = true)

theorem put_before (parent : Option StepId) (new : StepId) (nodup : names.Nodup) (h : y ∈ names) :
    ∃ l r, (relative y .before).put (fun x => x) parent new names = l ++ new :: y :: r := by
  rw [← List.map_id' names] at nodup h
  obtain ⟨l, _, r, -, rfl, hall⟩ := flatMap_ite_of_mem (fun s => [new, s]) nodup h
  exact ⟨l, r, hall⟩

theorem put_after (parent : Option StepId) (new : StepId) (nodup : names.Nodup) (h : y ∈ names) :
    ∃ l r, (relative y .after).put (fun x => x) parent new names = l ++ y :: new :: r := by
  rw [← List.map_id' names] at nodup h
  obtain ⟨l, _, r, -, rfl, hall⟩ := flatMap_ite_of_mem (fun s => [s, new]) nodup h
  exact ⟨l, r, hall⟩

end DropTarget

namespace Step

variable {p y : StepId} {target : DropTarget} {new : Step} {steps row : List Step}

/-! ## What is found after pasting -/

theorem find?_append (a b : List Step) : find? p (a ++ b) = (find? p a).or (find? p b) := by
  induction a with
  | nil => rfl
  | cons s rest ih =>
    rw [List.cons_append, find?, find?, ih]
    cases findIn? p s with
    | none => rfl
    | some found => rfl

/-- What is put into a list of siblings hides none of them. -/
theorem find?_put (parent : Option StepId) (nodup : (row.map Step.id).Nodup) (other : p ∉ new.ids) :
    find? p (target.put Step.id parent new row) = find? p row := by
  by_cases h : target.Means parent (row.map Step.id)
  · obtain ⟨before, after, rfl, hput⟩ := DropTarget.put_of_means new nodup h
    rw [hput, find?_append, find?_append, find?, (findIn?_eq_none_iff new).2 other]
  · rw [DropTarget.put_of_not_means h]

mutual

theorem findIn?_pasteIn (other : p ∉ new.ids) : ∀ s : Step, s.ids.Nodup →
    findIn? p (pasteIn target new s) = (findIn? p s).map (pasteIn target new)
  | leaf x a, _ => by
    rw [pasteIn, findIn?]
    split
    · rfl
    · rfl
  | block x f children, nodup => by
    obtain ⟨-, nodup⟩ := List.nodup_cons.1 nodup
    rw [pasteIn, findIn?, findIn?, find?_put (some x) (nodup_map_id_pasteEach nodup) other,
      find?_pasteEach other children nodup]
    split
    · rw [Option.map_some, pasteIn]
    · rfl

theorem find?_pasteEach (other : p ∉ new.ids) : ∀ steps : List Step, (idsOf steps).Nodup →
    find? p (pasteEach target new steps) = (find? p steps).map (pasteIn target new)
  | [], _ => rfl
  | s :: rest, nodup => by
    obtain ⟨ns, nr, -⟩ := List.nodup_append.1 nodup
    rw [pasteEach, find?, find?, findIn?_pasteIn other s ns, find?_pasteEach other rest nr]
    cases findIn? p s with
    | none => rfl
    | some found => rfl

end

/-- A step that was there is found with the new one put below it. -/
theorem find?_paste (target : DropTarget) (nodup : (idsOf steps).Nodup) (other : p ∉ new.ids) :
    find? p (paste target new steps) = (find? p steps).map (pasteIn target new) := by
  rw [paste, find?_put none (nodup_map_id_pasteEach nodup) other, find?_pasteEach other steps nodup]

theorem map_id_children_pasteIn (target : DropTarget) (new : Step) (x : StepId) (f : Frame) (children : List Step) :
    (pasteIn target new (block x f children)).children.map Step.id =
      target.put (fun y => y) (some x) new.id (children.map Step.id) := by
  rw [pasteIn, Step.children, DropTarget.map_put (fun y => y) fun _ => rfl, map_id_pasteEach]

/-! ## Seats -/

/-- A step stands at the top or among the children of another one. -/
theorem top_or_child (nodup : (idsOf steps).Nodup) (h : y ∈ idsOf steps) :
    y ∈ steps.map Step.id ∨ ∃ p s, find? p steps = some s ∧ y ∈ s.children.map Step.id := by
  -- a tree that has these steps knows the parent of each of them
  obtain ⟨wf, same, -⟩ := StepTree.ofSteps_of_nodup nodup (StepTree.dollars 0)
  generalize (StepTree.ofSteps (StepTree.dollars 0) steps).1 = t at *
  subst same
  cases up : t.parentOf y with
  | none =>
    refine .inl ((wf.parentOf_eq_none_iff.1 up).resolve_right ?_)
    rw [wf.find?_eq_none_iff, not_not]
    exact wf.mem_idsOf_toSteps.1 h
  | some p =>
    obtain ⟨s, hs, listed⟩ := wf.parentOf_eq_some_iff.1 up
    exact .inr ⟨p, s, wf.find?_toSteps hs, listed⟩

/-- The list of siblings in which a step stands has the new one at the target after pasting. -/
theorem row_paste (target : DropTarget) (nodup : (idsOf steps).Nodup) (apart : ∀ x ∈ idsOf steps, x ∉ new.ids)
    (h : y ∈ idsOf steps) : ∃ parent names, names.Nodup ∧ y ∈ names ∧
      Row (paste target new steps) (target.put (fun x => x) parent new.id names) := by
  rcases top_or_child nodup h with top | ⟨p, s, hs, listed⟩
  · refine ⟨none, steps.map Step.id, nodup_map_id steps nodup, top, ?_⟩
    rw [← map_id_paste]
    exact .top
  · have found := find?_paste target nodup (apart p (mem_idsOf_of_find? hs))
    have distinct := nodup_ids_of_find? nodup hs
    rw [hs, Option.map_some] at found
    cases s with
    | leaf x a => cases listed
    | block x f children =>
      refine ⟨some x, children.map Step.id, nodup_map_id children (List.nodup_cons.1 distinct).2, listed, ?_⟩
      rw [← map_id_children_pasteIn target new x f]
      exact .below found

/-- A step that is pasted where the target has a place sits at the target. -/
theorem seats_paste (nodup : (idsOf steps).Nodup) (apart : ∀ x ∈ idsOf steps, x ∉ new.ids) (fits : target.Fits steps) :
    target.Seats new.id (paste target new steps) := by
  cases target with
  | rootStart => exact ⟨steps.map Step.id, map_id_paste ..⟩
  | rootEnd => exact ⟨steps.map Step.id, map_id_paste ..⟩
  | relative y position =>
    obtain ⟨s, hs, container⟩ := fits y position rfl
    have known : y ∈ idsOf steps := mem_idsOf_of_find? hs
    cases position with
    | before =>
      obtain ⟨parent, names, distinct, hy, row⟩ := row_paste (.relative y .before) nodup apart known
      obtain ⟨l, r, hput⟩ := DropTarget.put_before parent new.id distinct hy
      rw [hput] at row
      exact ⟨l, r, row⟩
    | after =>
      obtain ⟨parent, names, distinct, hy, row⟩ := row_paste (.relative y .after) nodup apart known
      obtain ⟨l, r, hput⟩ := DropTarget.put_after parent new.id distinct hy
      rw [hput] at row
      exact ⟨l, r, row⟩
    | inside =>
      have found := find?_paste (.relative y .inside) nodup (apart y known)
      rw [hs, Option.map_some] at found
      obtain rfl := id_of_find? steps hs
      cases s with
      | leaf x a => cases container rfl
      | block x f children =>
        refine ⟨_, children.map Step.id, found, ?_⟩
        rw [map_id_children_pasteIn]
        exact if_pos rfl

end Step

namespace StepTree

variable {t : StepTree} {id : StepId} {s sub : Step} {target : DropTarget}

/-- A step that is inserted where the target has a place sits there. -/
theorem WF.seats_insert (hw : t.WF) (place : t.HasPlace target) (free : t.idsAreFree s = true) :
    target.Seats s.id (Step.paste target s t.toSteps) :=
  Step.seats_paste hw.nodup_toSteps (fun x hx hs => (idsAreFree_iff.1 free).2 x hs (hw.mem_idsOf_toSteps.1 hx))
    (hw.hasPlace_iff.1 place)

/-- A target that is not in a step has its place also when the step is cut out. -/
theorem WF.fits_cut (hw : t.WF) (hs : t.find? id = some sub) (out : ¬ target.IsIn sub) (place : t.HasPlace target) :
    target.Fits (Step.cut id t.toSteps) := by
  obtain ⟨deleted, nodes⟩ := hw.deleted id
  rw [← deleted]
  refine (wf_delete hw id).hasPlace_iff.1 fun y position hy => ?_
  obtain ⟨n, hn, container⟩ := place y position hy
  have left : y ∈ Step.idsOf (Step.cut id t.toSteps) :=
    (Step.mem_idsOf_cut hw.nodup_toSteps (hw.find?_toSteps hs)).2
      ⟨hw.mem_idsOf_toSteps.2 (mem_keys_of_get? hn), fun inside => out ⟨y, position, hy, inside⟩⟩
  exact ⟨n.without id, by rw [nodes y left, hn, Option.map_some], container⟩

/-- A step that is moved where the target has a place sits there. -/
theorem WF.seats_move (hw : t.WF) (hs : t.find? id = some sub) (out : ¬ target.IsIn sub) (place : t.HasPlace target) :
    target.Seats id (Step.paste target sub (Step.cut id t.toSteps)) := by
  have nodup := hw.nodup_toSteps
  have found := hw.find?_toSteps hs
  have seats := Step.seats_paste (Step.nodup_idsOf_cut nodup found)
    (fun x hx => ((Step.mem_idsOf_cut nodup found).1 hx).2) (hw.fits_cut hs out place)
  rwa [(hw.bears_of_find? hs).1] at seats

end StepTree

end StepTimer
