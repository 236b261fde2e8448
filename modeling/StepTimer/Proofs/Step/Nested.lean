/-
Edits of nested steps, as lists in lists and without a table: a step is cut out with all steps below it (`cut`), a
step is put at a drop target (`paste`), and a step is exchanged for another one in its place (`graft`). Each of them
goes through the lists of siblings from the top down and leaves in place and in order what it does not name.
-/
import StepTimer.Proofs.Tree.Names

namespace StepTimer

namespace DropTarget

variable {α β : Type}

/-- The children of a parent, or the top steps, with a new one at a drop target. A list that the target does not mean
is left as it is. -/
def put (target : DropTarget) (name : α → StepId) (parent : Option StepId) (new : α) (row : List α) : List α :=
  match target with
  | rootStart => if parent = none then new :: row else row
  | rootEnd => if parent = none then row ++ [new] else row
  | relative y .before => row.flatMap fun s => if name s = y then [new, s] else [s]
  | relative y .after => row.flatMap fun s => if name s = y then [s, new] else [s]
  | relative y .inside => if parent = some y then row ++ [new] else row

/-- Whether a drop target means a list of siblings, by their parent and their names. -/
def Means (target : DropTarget) (parent : Option StepId) (names : List StepId) : Prop :=
  match target with
  | rootStart | rootEnd => parent = none
  | relative y .inside => parent = some y
  | relative y _ => y ∈ names

variable {target : DropTarget} {parent : Option StepId} {name : α → StepId} {new s : α} {row : List α} {y : StepId}

theorem map_flatMap_ite {f : α → β} {name' : β → StepId} (h : ∀ a, name' (f a) = name a) {a : α → List α}
    {a' : β → List β} (ha : ∀ s, (a s).map f = a' (f s)) :
    (row.flatMap fun s => if name s = y then a s else [s]).map f =
      (row.map f).flatMap fun s => if name' s = y then a' s else [s] := by
  rw [List.map_flatMap, List.flatMap_map]
  refine List.flatMap_congr fun s _ => ?_
  rw [h s]
  split
  · exact ha s
  · rfl

/-- What is put into a list may be named before or after. -/
theorem map_put {f : α → β} (name' : β → StepId) (h : ∀ a, name' (f a) = name a) :
    (target.put name parent new row).map f = target.put name' parent (f new) (row.map f) := by
  cases target with
  | rootStart => simp only [put]; split <;> simp
  | rootEnd => simp only [put]; split <;> simp
  | relative y position =>
    cases position with
    | before => exact map_flatMap_ite h fun _ => rfl
    | after => exact map_flatMap_ite h fun _ => rfl
    | inside => simp only [put]; split <;> simp

theorem flatMap_ite_of_not_mem (a : α → List α) (h : y ∉ row.map name) :
    (row.flatMap fun s => if name s = y then a s else [s]) = row := by
  induction row with
  | nil => rfl
  | cons s rest ih =>
    rw [List.map_cons, List.mem_cons, not_or] at h
    rw [List.flatMap_cons, if_neg (Ne.symm h.1), ih h.2]
    rfl

theorem flatMap_ite_of_mem (a : α → List α) (nodup : (row.map name).Nodup) (h : y ∈ row.map name) :
    ∃ before s after, row = before ++ s :: after ∧ name s = y ∧
      (row.flatMap fun s => if name s = y then a s else [s]) = before ++ (a s ++ after) := by
  induction row with
  | nil => cases h
  | cons s rest ih =>
    rw [List.map_cons] at nodup h
    obtain ⟨notIn, nodup⟩ := List.nodup_cons.1 nodup
    by_cases hs : name s = y
    · refine ⟨[], s, rest, rfl, hs, ?_⟩
      rw [List.flatMap_cons, if_pos hs, flatMap_ite_of_not_mem a (hs ▸ notIn)]
      rfl
    · obtain ⟨before, r, after, rfl, hr, hall⟩ := ih nodup ((List.mem_cons.1 h).resolve_left (Ne.symm hs))
      refine ⟨s :: before, r, after, rfl, hr, ?_⟩
      rw [List.flatMap_cons, if_neg hs, hall]
      rfl

/-- A list that the target does not mean stays as it is. -/
theorem put_of_not_means (h : ¬ target.Means parent (row.map name)) : target.put name parent new row = row := by
  cases target with
  | rootStart => exact if_neg h
  | rootEnd => exact if_neg h
  | relative y position =>
    cases position with
    | before => exact flatMap_ite_of_not_mem _ h
    | after => exact flatMap_ite_of_not_mem _ h
    | inside => exact if_neg h

/-- In the list that the target means the new one stands between two that were beside each other. -/
theorem put_of_means (new : α) (nodup : (row.map name).Nodup) (h : target.Means parent (row.map name)) :
    ∃ before after, row = before ++ after ∧ target.put name parent new row = before ++ new :: after := by
  cases target with
  | rootStart => exact ⟨[], row, rfl, if_pos h⟩
  | rootEnd => exact ⟨row, [], (List.append_nil row).symm, if_pos h⟩
  | relative y position =>
    cases position with
    | before =>
      obtain ⟨before, s, after, hrow, -, hall⟩ := flatMap_ite_of_mem (fun s => [new, s]) nodup h
      exact ⟨before, s :: after, hrow, hall⟩
    | after =>
      obtain ⟨before, s, after, hrow, -, hall⟩ := flatMap_ite_of_mem (fun s => [s, new]) nodup h
      exact ⟨before ++ [s], after, by rw [hrow]; simp, by rw [put, hall]; simp⟩
    | inside => exact ⟨row, [], (List.append_nil row).symm, if_pos h⟩

theorem mem_put (nodup : (row.map name).Nodup) (h : s ∈ target.put name parent new row) :
    s ∈ row ∨ s = new ∧ target.Means parent (row.map name) := by
  by_cases hm : target.Means parent (row.map name)
  · obtain ⟨before, after, hrow, hput⟩ := put_of_means new nodup hm
    rw [hput, List.mem_append, List.mem_cons] at h
    rw [hrow, List.mem_append]
    rcases h with h | rfl | h
    · exact .inl (.inl h)
    · exact .inr ⟨rfl, hrow ▸ hm⟩
    · exact .inl (.inr h)
  · rw [put_of_not_means hm] at h
    exact .inl h

end DropTarget

namespace Step

/-! ## The edits -/

mutual

/-- A step without the one of a name below it. -/
def cutIn (id : StepId) : Step → Step
  | leaf x a => leaf x a
  | block x f children => block x f (cut id children)

/-- The steps without the one of a name and all steps below it. -/
def cut (id : StepId) : List Step → List Step
  | [] => []
  | s :: rest => if s.id = id then cut id rest else cutIn id s :: cut id rest

end

mutual

/-- A step with another one put at a drop target below it. -/
def pasteIn (target : DropTarget) (new : Step) : Step → Step
  | leaf x a => leaf x a
  | block x f children => block x f (target.put id (some x) new (pasteEach target new children))

def pasteEach (target : DropTarget) (new : Step) : List Step → List Step
  | [] => []
  | s :: rest => pasteIn target new s :: pasteEach target new rest

end

/-- The steps with another one put at a drop target. -/
def paste (target : DropTarget) (new : Step) (steps : List Step) : List Step :=
  target.put id none new (pasteEach target new steps)

mutual

/-- A step with the one of a name in it exchanged for another one. -/
def graftIn (id : StepId) (new : Step) : Step → Step
  | leaf x a => if x = id then new else leaf x a
  | block x f children => if x = id then new else block x f (graft id new children)

/-- The steps with the one of a name, and all steps below it, exchanged for another one. -/
def graft (id : StepId) (new : Step) : List Step → List Step
  | [] => []
  | s :: rest => graftIn id new s :: graft id new rest

end

variable {id x : StepId} {target : DropTarget} {new sub s : Step} {steps rest : List Step}

@[simp] theorem id_cutIn (s : Step) : (cutIn id s).id = s.id := by
  cases s <;> rfl

@[simp] theorem id_pasteIn (s : Step) : (pasteIn target new s).id = s.id := by
  cases s <;> rfl

theorem id_graftIn (h : new.id = id) (s : Step) : (graftIn id new s).id = s.id := by
  cases s with
  | leaf x a =>
    unfold graftIn
    split
    · rename_i hx; rw [hx]; exact h
    · rfl
  | block x f children =>
    unfold graftIn
    split
    · rename_i hx; rw [hx]; exact h
    · rfl

theorem idsOf_append (a b : List Step) : idsOf (a ++ b) = idsOf a ++ idsOf b := by
  induction a with
  | nil => rfl
  | cons s rest ih => simp [idsOf, ih]

theorem cut_append (id : StepId) (a b : List Step) : cut id (a ++ b) = cut id a ++ cut id b := by
  induction a with
  | nil => rfl
  | cons s rest ih =>
    rw [List.cons_append, cut, cut, ih]
    split
    · rfl
    · rfl

/-- The name of a step, and the names below it. -/
theorem ids_eq_cons (s : Step) : s.ids = s.id :: idsOf s.children := by
  cases s <;> rfl

theorem map_id_cut (id : StepId) (steps : List Step) :
    (cut id steps).map Step.id = (steps.map Step.id).filter fun x => x ≠ id := by
  induction steps with
  | nil => rfl
  | cons s rest ih =>
    unfold cut
    by_cases h : s.id = id
    · rw [if_pos h, ih, List.map_cons, List.filter_cons_of_neg (by simpa using h)]
    · rw [if_neg h, List.map_cons, List.map_cons, List.filter_cons_of_pos (by simpa using h), ih, id_cutIn]

theorem map_id_pasteEach (target : DropTarget) (new : Step) (steps : List Step) :
    (pasteEach target new steps).map Step.id = steps.map Step.id := by
  induction steps with
  | nil => rfl
  | cons s rest ih => rw [pasteEach, List.map_cons, List.map_cons, ih, id_pasteIn]

/-- The names at the top with another one at the target. -/
theorem map_id_paste (target : DropTarget) (new : Step) (steps : List Step) :
    (paste target new steps).map Step.id = target.put (fun x => x) none new.id (steps.map Step.id) := by
  rw [paste, DropTarget.map_put (fun x => x) fun _ => rfl, map_id_pasteEach]

theorem map_id_graft (h : new.id = id) (steps : List Step) : (graft id new steps).map Step.id = steps.map Step.id := by
  induction steps with
  | nil => rfl
  | cons s rest ih => rw [graft, List.map_cons, List.map_cons, ih, id_graftIn h]

/-! ## What is found -/

mutual

theorem findIn?_eq_none_iff : ∀ s : Step, findIn? id s = none ↔ id ∉ s.ids
  | leaf x a => by
    unfold findIn? ids
    by_cases h : x = id
    · simp [h]
    · simp [h, Ne.symm h]
  | block x f children => by
    unfold findIn? ids
    by_cases h : x = id
    · simp [h]
    · rw [if_neg h, find?_eq_none_iff children, List.mem_cons, not_or]
      exact ⟨fun hc => ⟨Ne.symm h, hc⟩, fun hc => hc.2⟩

theorem find?_eq_none_iff : ∀ steps : List Step, find? id steps = none ↔ id ∉ idsOf steps
  | [] => by simp [find?, idsOf]
  | s :: rest => by
    unfold find? idsOf
    rw [List.mem_append, not_or, ← findIn?_eq_none_iff s, ← find?_eq_none_iff rest]
    cases findIn? id s with
    | none => simp
    | some found => simp

end

mutual

theorem id_of_findIn? : ∀ s : Step, findIn? id s = some sub → sub.id = id
  | leaf x a, h => by
    unfold findIn? at h
    split at h
    · cases h; assumption
    · cases h
  | block x f children, h => by
    unfold findIn? at h
    split at h
    · cases h; assumption
    · exact id_of_find? children h

theorem id_of_find? : ∀ steps : List Step, find? id steps = some sub → sub.id = id
  | [], h => by cases h
  | s :: rest, h => by
    unfold find? at h
    split at h
    · cases h; exact id_of_findIn? s ‹_›
    · exact id_of_find? rest h

end

theorem findIn?_self (h : s.id = id) : findIn? id s = some s := by
  cases s with
  | leaf x a => exact if_pos h
  | block x f children => exact if_pos h

theorem mem_idsOf_of_find? (h : find? id steps = some sub) : id ∈ idsOf steps := by
  by_contra hno
  rw [(find?_eq_none_iff steps).2 hno] at h
  cases h

/-! ## Cutting and exchanging -/

mutual

theorem cutIn_of_not_mem : ∀ s : Step, id ∉ s.ids → cutIn id s = s
  | leaf _ _, _ => rfl
  | block x f children, h => by
    rw [cutIn, cut_of_not_mem children fun hc => h (List.mem_cons_of_mem _ hc)]

theorem cut_of_not_mem : ∀ steps : List Step, id ∉ idsOf steps → cut id steps = steps
  | [], _ => rfl
  | s :: rest, h => by
    rw [idsOf, List.mem_append, not_or] at h
    have hne : s.id ≠ id := fun hs => h.1 (hs ▸ id_mem_ids s)
    rw [cut, if_neg hne, cutIn_of_not_mem s h.1, cut_of_not_mem rest h.2]

end

/-- A step is not below itself. -/
theorem cutIn_self (nodup : s.ids.Nodup) : cutIn s.id s = s := by
  cases s with
  | leaf x a => rfl
  | block x f children => exact congrArg (block x f) (cut_of_not_mem children (List.nodup_cons.1 nodup).1)

theorem graftIn_self (h : s.id = id) : graftIn id new s = new := by
  cases s with
  | leaf x a => exact if_pos h
  | block x f children => exact if_pos h

mutual

theorem graftIn_of_not_mem : ∀ s : Step, id ∉ s.ids → graftIn id new s = s
  | leaf x a, h => by
    have hne : x ≠ id := fun hx => h (by rw [← hx]; exact id_mem_ids (leaf x a))
    exact if_neg hne
  | block x f children, h => by
    have hne : x ≠ id := fun hx => h (by rw [← hx]; exact id_mem_ids (block x f children))
    rw [graftIn, if_neg hne, graft_of_not_mem children fun hc => h (List.mem_cons_of_mem _ hc)]

theorem graft_of_not_mem : ∀ steps : List Step, id ∉ idsOf steps → graft id new steps = steps
  | [], _ => rfl
  | s :: rest, h => by
    rw [idsOf, List.mem_append, not_or] at h
    rw [graft, graftIn_of_not_mem s h.1, graft_of_not_mem rest h.2]

end

mutual

theorem not_mem_ids_cutIn : ∀ s : Step, s.id ≠ id → id ∉ (cutIn id s).ids
  | leaf x a, hs => fun h => hs (List.mem_singleton.1 h).symm
  | block x f children, hs => by
    rw [cutIn, ids, List.mem_cons, not_or]
    exact ⟨Ne.symm hs, not_mem_idsOf_cut children⟩

/-- What is cut out is gone. -/
theorem not_mem_idsOf_cut : ∀ steps : List Step, id ∉ idsOf (cut id steps)
  | [] => List.not_mem_nil
  | s :: rest => by
    rw [cut]
    split
    · exact not_mem_idsOf_cut rest
    next hs =>
      rw [idsOf, List.mem_append, not_or]
      exact ⟨not_mem_ids_cutIn s hs, not_mem_idsOf_cut rest⟩

end

mutual

theorem ids_cutIn_subset : ∀ s : Step, (cutIn id s).ids ⊆ s.ids
  | leaf _ _ => fun _ h => h
  | block _ _ children => List.cons_subset_cons _ (idsOf_cut_subset children)

theorem idsOf_cut_subset : ∀ steps : List Step, idsOf (cut id steps) ⊆ idsOf steps
  | [] => fun _ h => h
  | s :: rest => by
    rw [cut, idsOf]
    split
    · exact fun _ h => List.mem_append_right _ (idsOf_cut_subset rest h)
    · intro x hx
      exact List.mem_append.2 ((List.mem_append.1 hx).imp (ids_cutIn_subset s ·) (idsOf_cut_subset rest ·))

end

mutual

/-- The names of the step that is found are one piece of the names above it: cutting takes the piece out, and an
exchange puts other names there. -/
theorem ids_split : ∀ s : Step, s.id ≠ id → s.ids.Nodup → findIn? id s = some sub →
    ∃ before after, s.ids = before ++ (sub.ids ++ after) ∧ (cutIn id s).ids = before ++ after ∧
      ∀ new : Step, (graftIn id new s).ids = before ++ (new.ids ++ after)
  | leaf x a, hne, _, h => by
    rw [findIn?, if_neg (show x ≠ id from hne)] at h
    cases h
  | block x f children, hne, nodup, h => by
    have hx : x ≠ id := hne
    rw [findIn?, if_neg hx] at h
    obtain ⟨before, after, hall, hcut, hgraft⟩ := idsOf_split children (List.nodup_cons.1 nodup).2 h
    refine ⟨x :: before, after, ?_, ?_, fun new => ?_⟩
    · rw [ids, hall, List.cons_append]
    · rw [cutIn, ids, hcut, List.cons_append]
    · rw [graftIn, if_neg hx, ids, hgraft, List.cons_append]

/-- The names of the step that is found are one piece of the names in the list. -/
theorem idsOf_split : ∀ steps : List Step, (idsOf steps).Nodup → find? id steps = some sub →
    ∃ before after, idsOf steps = before ++ (sub.ids ++ after) ∧ idsOf (cut id steps) = before ++ after ∧
      ∀ new : Step, idsOf (graft id new steps) = before ++ (new.ids ++ after)
  | [], _, h => by cases h
  | s :: rest, nodup, h => by
    rw [idsOf, List.nodup_append] at nodup
    obtain ⟨ns, nr, apart⟩ := nodup
    unfold find? at h
    rcases hs : findIn? id s with _ | found
    · -- it is further down the list
      rw [hs] at h
      have notIn := (findIn?_eq_none_iff s).1 hs
      obtain ⟨before, after, hall, hcut, hgraft⟩ := idsOf_split rest nr h
      have hne : s.id ≠ id := fun hid => notIn (hid ▸ id_mem_ids s)
      refine ⟨s.ids ++ before, after, ?_, ?_, fun new => ?_⟩
      · rw [idsOf, hall, List.append_assoc]
      · rw [cut, if_neg hne, idsOf, hcut, cutIn_of_not_mem s notIn, List.append_assoc]
      · rw [graft, idsOf, hgraft, graftIn_of_not_mem s notIn, List.append_assoc]
    · rw [hs] at h; cases h
      have inS : id ∈ s.ids := by
        by_contra hno
        rw [(findIn?_eq_none_iff s).2 hno] at hs
        cases hs
      have notInRest : id ∉ idsOf rest := fun hr => apart id inS id hr rfl
      by_cases hid : s.id = id
      · rw [findIn?_self hid] at hs
        cases hs
        refine ⟨[], idsOf rest, rfl, ?_, fun new => ?_⟩
        · rw [cut, if_pos hid, cut_of_not_mem rest notInRest]; rfl
        · rw [graft, idsOf, graftIn_self hid, graft_of_not_mem rest notInRest]; rfl
      · obtain ⟨before, after, hall, hcut, hgraft⟩ := ids_split s hid ns hs
        refine ⟨before, after ++ idsOf rest, ?_, ?_, fun new => ?_⟩
        · rw [idsOf, hall]; simp only [List.append_assoc]
        · rw [cut, if_neg hid, idsOf, hcut, cut_of_not_mem rest notInRest, List.append_assoc]
        · rw [graft, idsOf, hgraft, graft_of_not_mem rest notInRest]; simp only [List.append_assoc]

end

/-- The names that are left are the ones outside of the step that was cut out, in their old order. -/
theorem idsOf_cut_eq_filter (nodup : (idsOf steps).Nodup) (h : find? id steps = some sub) :
    idsOf (cut id steps) = (idsOf steps).filter fun x => x ∉ sub.ids := by
  obtain ⟨before, after, hall, hcut, -⟩ := idsOf_split steps nodup h
  rw [hall] at nodup ⊢
  obtain ⟨-, nodup, apart⟩ := List.nodup_append.1 nodup
  obtain ⟨-, -, apart'⟩ := List.nodup_append.1 nodup
  have keeps (l : List StepId) (hl : ∀ y ∈ l, y ∉ sub.ids) : l.filter (fun x => x ∉ sub.ids) = l :=
    List.filter_eq_self.2 fun y hy => by simpa using hl y hy
  have drops : sub.ids.filter (fun x => x ∉ sub.ids) = [] :=
    List.filter_eq_nil_iff.2 fun y hy => by simpa using hy
  rw [hcut, List.filter_append, List.filter_append, drops, List.nil_append,
    keeps before fun y hy hs => apart y hy y (List.mem_append_left _ hs) rfl,
    keeps after fun y hy hs => apart' y hs y hy rfl]

theorem mem_idsOf_cut (nodup : (idsOf steps).Nodup) (h : find? id steps = some sub) :
    x ∈ idsOf (cut id steps) ↔ x ∈ idsOf steps ∧ x ∉ sub.ids := by
  rw [idsOf_cut_eq_filter nodup h, List.mem_filter, decide_eq_true_iff]

theorem nodup_idsOf_cut (nodup : (idsOf steps).Nodup) (h : find? id steps = some sub) :
    (idsOf (cut id steps)).Nodup := by
  rw [idsOf_cut_eq_filter nodup h]
  exact nodup.filter _

theorem subset_of_find? (nodup : (idsOf steps).Nodup) (h : find? id steps = some sub) : sub.ids ⊆ idsOf steps := by
  obtain ⟨before, after, hall, -⟩ := idsOf_split steps nodup h
  intro y hy
  rw [hall]
  exact List.mem_append_right _ (List.mem_append_left _ hy)

theorem mem_idsOf_graft (nodup : (idsOf steps).Nodup) (h : find? id steps = some sub) :
    x ∈ idsOf (graft id new steps) ↔ x ∈ idsOf (cut id steps) ∨ x ∈ new.ids := by
  obtain ⟨before, after, -, hcut, hgraft⟩ := idsOf_split steps nodup h
  rw [hcut, hgraft]
  simp only [List.mem_append]
  tauto

theorem nodup_ids_of_find? (nodup : (idsOf steps).Nodup) (h : find? id steps = some sub) : sub.ids.Nodup := by
  obtain ⟨before, after, hall, -⟩ := idsOf_split steps nodup h
  rw [hall] at nodup
  exact (List.nodup_append.1 (List.nodup_append.1 nodup).2.1).1

/-! ## Pasting -/

theorem nodup_map_id : ∀ steps : List Step, (idsOf steps).Nodup → (steps.map Step.id).Nodup
  | [], _ => List.nodup_nil
  | s :: rest, h => by
    obtain ⟨-, nr, apart⟩ := List.nodup_append.1 h
    refine List.nodup_cons.2 ⟨fun hs => ?_, nodup_map_id rest nr⟩
    obtain ⟨r, hr, hid⟩ := List.mem_map.1 hs
    refine apart _ (id_mem_ids s) _ ?_ hid.symm
    exact mem_idsOf.2 ⟨r, hr, id_mem_ids r⟩

theorem nodup_map_id_pasteEach (nodup : (idsOf steps).Nodup) : ((pasteEach target new steps).map Step.id).Nodup := by
  rw [map_id_pasteEach]
  exact nodup_map_id steps nodup

/-- What was put into a list of siblings can be cut out again. -/
theorem cut_put (parent : Option StepId) {row : List Step} (nodup : (row.map Step.id).Nodup) :
    cut new.id (target.put Step.id parent new row) = cut new.id row := by
  by_cases h : target.Means parent (row.map Step.id)
  · obtain ⟨before, after, rfl, hput⟩ := DropTarget.put_of_means new nodup h
    rw [hput, cut_append, cut_append, cut, if_pos rfl]
  · rw [DropTarget.put_of_not_means h]

mutual

theorem cutIn_pasteIn : ∀ s : Step, s.ids.Nodup → new.id ∉ s.ids → cutIn new.id (pasteIn target new s) = s
  | leaf _ _, _, _ => rfl
  | block x f children, nodup, h => by
    obtain ⟨-, nodup⟩ := List.nodup_cons.1 nodup
    rw [pasteIn, cutIn, cut_put (some x) (nodup_map_id_pasteEach nodup),
      cut_pasteEach children nodup fun hc => h (List.mem_cons_of_mem _ hc)]

theorem cut_pasteEach : ∀ steps : List Step, (idsOf steps).Nodup → new.id ∉ idsOf steps →
    cut new.id (pasteEach target new steps) = steps
  | [], _, _ => rfl
  | s :: rest, nodup, h => by
    rw [idsOf, List.mem_append, not_or] at h
    obtain ⟨ns, nr, -⟩ := List.nodup_append.1 nodup
    have hne : (pasteIn target new s).id ≠ new.id := fun hs => h.1 (by rw [← hs, id_pasteIn]; exact id_mem_ids s)
    rw [pasteEach, cut, if_neg hne, cutIn_pasteIn s ns h.1, cut_pasteEach rest nr h.2]

end

/-- Cutting out what was pasted gives the steps as they were. -/
theorem cut_paste (nodup : (idsOf steps).Nodup) (h : new.id ∉ idsOf steps) :
    cut new.id (paste target new steps) = steps := by
  rw [paste, cut_put none (nodup_map_id_pasteEach nodup), cut_pasteEach steps nodup h]

/-- The names beside those of what was put into a list of siblings. -/
theorem filter_idsOf_put (parent : Option StepId) {row : List Step} (nodup : (row.map Step.id).Nodup) :
    (idsOf (target.put Step.id parent new row)).filter (fun x => x ∉ new.ids) =
      (idsOf row).filter fun x => x ∉ new.ids := by
  by_cases h : target.Means parent (row.map Step.id)
  · obtain ⟨before, after, rfl, hput⟩ := DropTarget.put_of_means new nodup h
    have gone : new.ids.filter (fun x => x ∉ new.ids) = [] := List.filter_eq_nil_iff.2 fun y hy => by simpa using hy
    rw [hput, idsOf_append, idsOf_append, idsOf, List.filter_append, List.filter_append, List.filter_append, gone,
      List.nil_append]
  · rw [DropTarget.put_of_not_means h]

mutual

theorem filter_ids_pasteIn : ∀ s : Step, s.ids.Nodup →
    (pasteIn target new s).ids.filter (fun x => x ∉ new.ids) = s.ids.filter fun x => x ∉ new.ids
  | leaf _ _, _ => rfl
  | block x f children, nodup => by
    obtain ⟨-, nodup⟩ := List.nodup_cons.1 nodup
    rw [pasteIn, ids, ids, List.filter_cons, List.filter_cons,
      filter_idsOf_put (some x) (nodup_map_id_pasteEach nodup), filter_idsOf_pasteEach children nodup]

theorem filter_idsOf_pasteEach : ∀ steps : List Step, (idsOf steps).Nodup →
    (idsOf (pasteEach target new steps)).filter (fun x => x ∉ new.ids) = (idsOf steps).filter fun x => x ∉ new.ids
  | [], _ => rfl
  | s :: rest, nodup => by
    obtain ⟨ns, nr, -⟩ := List.nodup_append.1 nodup
    rw [pasteEach, idsOf, idsOf, List.filter_append, List.filter_append, filter_ids_pasteIn s ns,
      filter_idsOf_pasteEach rest nr]

end

/-- The other steps stand in their old order when one has been pasted between them. -/
theorem filter_idsOf_paste (nodup : (idsOf steps).Nodup) :
    (idsOf (paste target new steps)).filter (fun x => x ∉ new.ids) = (idsOf steps).filter fun x => x ∉ new.ids := by
  rw [paste, filter_idsOf_put none (nodup_map_id_pasteEach nodup), filter_idsOf_pasteEach steps nodup]

end Step

end StepTimer
