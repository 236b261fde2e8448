/-
What adding steps to a table adds. The steps that are added are the given ones with every name replaced that is
already used when its turn comes, from the top down; the table then bears them, and the nodes that it had stay. Steps
with names of their own are added as they are, whatever the source of names is.
-/
import Mathlib.Data.Finset.Dedup
import Mathlib.Data.Finset.Order
import StepTimer.Proofs.Tree.Places

namespace StepTimer

namespace Step

/-- The name that a step is given among used ones: its own, or else a fresh one. -/
def nameAmong (source : IdSource) (used : List StepId) (id : StepId) : StepId × IdSource :=
  if id ∈ used then source.next else (id, source)

mutual

/-- A step in which every name that is used, by others or by the steps before it, is replaced with a fresh one. -/
def renamedIn (source : IdSource) (used : List StepId) : Step → Step × IdSource
  | leaf id a =>
    let (id, source) := nameAmong source used id
    (leaf id a, source)
  | block id f children =>
    let (id, source) := nameAmong source used id
    let (children, source) := renamed source (used ++ [id]) children
    (block id f children, source)

/-- Steps in which every name that is used, by others or by the steps before it, is replaced with a fresh one. -/
def renamed (source : IdSource) (used : List StepId) : List Step → List Step × IdSource
  | [] => ([], source)
  | s :: rest =>
    let (s, source) := renamedIn source used s
    let (rest, source) := renamed source (used ++ s.ids) rest
    (s :: rest, source)

end

variable {source : IdSource} {used extra : List StepId} {id : StepId}

theorem renamed_cons (source : IdSource) (used : List StepId) (s : Step) (rest : List Step) :
    renamed source used (s :: rest) =
      ((renamedIn source used s).1 ::
          (renamed (renamedIn source used s).2 (used ++ (renamedIn source used s).1.ids) rest).1,
        (renamed (renamedIn source used s).2 (used ++ (renamedIn source used s).1.ids) rest).2) := by
  rw [renamed]

theorem renamedIn_block (source : IdSource) (used : List StepId) (id : StepId) (f : Frame) (children : List Step) :
    renamedIn source used (block id f children) =
      (block (nameAmong source used id).1 f
        (renamed (nameAmong source used id).2 (used ++ [(nameAmong source used id).1]) children).1,
        (renamed (nameAmong source used id).2 (used ++ [(nameAmong source used id).1]) children).2) := by
  rw [renamedIn]

theorem nameAmong_of_not_mem (h : id ∉ used) : nameAmong source used id = (id, source) := if_neg h

mutual

/-- A step whose names are its own keeps them. -/
theorem renamedIn_of_nodup : ∀ {s : Step} {used : List StepId}, (used ++ s.ids).Nodup →
    renamedIn source used s = (s, source)
  | leaf id a, used, h => by
    have own : id ∉ used := fun hu => List.disjoint_of_nodup_append h hu (List.mem_singleton_self id)
    rw [renamedIn, nameAmong_of_not_mem own]
  | block id f children, used, h => by
    have own : id ∉ used := fun hu => List.disjoint_of_nodup_append h hu (List.mem_cons_self ..)
    have below : (used ++ [id] ++ idsOf children).Nodup := by rwa [List.append_assoc]
    rw [renamedIn_block, nameAmong_of_not_mem own, renamed_of_nodup below]

theorem renamed_of_nodup : ∀ {steps : List Step} {used : List StepId}, (used ++ idsOf steps).Nodup →
    renamed source used steps = (steps, source)
  | [], _, _ => rfl
  | s :: rest, used, h => by
    rw [idsOf, ← List.append_assoc] at h
    rw [renamed_cons, renamedIn_of_nodup (List.nodup_append.1 h).1, renamed_of_nodup h]

end

end Step

namespace StepTree

variable {t : StepTree} {source source' : IdSource} {parent : Option StepId} {p : StepId} {n : Node} {s : Step}
  {steps : List Step}

theorem nameFor_eq (source : IdSource) (t : StepTree) (id : StepId) :
    t.nameFor source id = Step.nameAmong source t.keys id := by
  unfold nameFor Step.nameAmong
  simp only [mem_keys]

/-! ## The names that are added -/

mutual

theorem names_addSubtree : ∀ (s : Step) (source : IdSource) (t : StepTree) (parent : Option StepId),
    let r := t.addSubtree source parent s
    r.1 = (Step.renamedIn source t.keys s).1.id ∧ r.2.1.keys = t.keys ++ (Step.renamedIn source t.keys s).1.ids ∧
      r.2.2 = (Step.renamedIn source t.keys s).2
  | .leaf id a, source, t, parent => by
    simp only [addSubtree_leaf, nameFor_eq, keys_addNode, Step.renamedIn, Step.id, Step.ids, and_self]
  | .block id f children, source, t, parent => by
    obtain ⟨keys, source⟩ := names_addChildren children (Step.nameAmong source t.keys id).2
      (t.addNode (Step.nameAmong source t.keys id).1 ⟨.block (Step.nameAmong source t.keys id).1 f [], parent, []⟩)
      (Step.nameAmong source t.keys id).1
    rw [keys_addNode] at keys source
    simp only [addSubtree_block, nameFor_eq, Step.renamedIn_block, Step.id, Step.ids, keys, source, List.append_assoc,
      List.singleton_append, and_self]

theorem names_addChildren : ∀ (steps : List Step) (source : IdSource) (t : StepTree) (p : StepId),
    let r := t.addChildren source p steps
    r.1.keys = t.keys ++ Step.idsOf (Step.renamed source t.keys steps).1 ∧ r.2 = (Step.renamed source t.keys steps).2
  | [], source, t, p => by simp [addChildren, Step.renamed, Step.idsOf]
  | s :: rest, source, t, p => by
    obtain ⟨-, keys, first⟩ := names_addSubtree s source t (some p)
    obtain ⟨keys', rest⟩ := names_addChildren rest (t.addSubtree source (some p) s).2.2
      ((t.addSubtree source (some p) s).2.1.modifySiblings (some p) (· ++ [(t.addSubtree source (some p) s).1])) p
    rw [keys_modifySiblings, keys, first] at keys' rest
    simp only [addChildren_cons, Step.renamed_cons, Step.idsOf, first, keys', rest, List.append_assoc, and_self]

end

theorem names_addRoots : ∀ (steps : List Step) (source : IdSource) (t : StepTree),
    (addRoots source t steps).1.keys = t.keys ++ Step.idsOf (Step.renamed source t.keys steps).1 ∧
      (addRoots source t steps).2 = (Step.renamed source t.keys steps).2
  | [], source, t => by simp [addRoots, Step.renamed, Step.idsOf]
  | s :: rest, source, t => by
    obtain ⟨-, keys, first⟩ := names_addSubtree s source t none
    obtain ⟨keys', rest⟩ := names_addRoots rest (t.addSubtree source none s).2.2
      ((t.addSubtree source none s).2.1.modifySiblings none (· ++ [(t.addSubtree source none s).1]))
    rw [keys_modifySiblings, keys, first] at keys' rest
    simp only [addRoots_cons, Step.renamed_cons, Step.idsOf, first, keys', rest, List.append_assoc, and_self]

/-! ## The steps that are added -/

/-- What adding a step does to a table: it bears the step, and the nodes that it had stay. -/
structure Bearing (t t' : StepTree) (parent : Option StepId) (s : Step) : Prop where
  bears : t'.Bears parent s
  kept : ∀ x ∈ t.keys, t'.get? x = t.get? x
  roots : t'.roots = t.roots

/-- What adding steps to the end of the children of a step does to a table. -/
structure BearingAll (t t' : StepTree) (p : StepId) (n : Node) (steps : List Step) : Prop where
  bears : t'.BearsAll (some p) steps
  host : t'.get? p = some (n.mapChildren (· ++ steps.map Step.id))
  kept : ∀ x ∈ t.keys, x ≠ p → t'.get? x = t.get? x
  roots : t'.roots = t.roots

mutual

theorem bearing_addSubtree : ∀ (s : Step) (source : IdSource) (t : StepTree) (parent : Option StepId),
    (t.keys ++ (Step.renamedIn source t.keys s).1.ids).Nodup →
      Bearing t (t.addSubtree source parent s).2.1 parent (Step.renamedIn source t.keys s).1
  | .leaf id a, source, t, parent, h => by
    rw [addSubtree_leaf, nameFor_eq]
    have new : (Step.nameAmong source t.keys id).1 ∉ t.keys := fun hk =>
      List.disjoint_of_nodup_append h hk (List.mem_singleton_self _)
    refine ⟨get?_addNode_self new, fun x hx => ?_, rfl⟩
    exact get?_addNode_ne new fun he => new (he ▸ hx)
  | .block id f children, source, t, parent, h => by
    rw [Step.renamedIn_block] at h ⊢
    rw [addSubtree_block, nameFor_eq]
    have new : (Step.nameAmong source t.keys id).1 ∉ t.keys := fun hk =>
      List.disjoint_of_nodup_append h hk (List.mem_cons_self ..)
    have own := get?_addNode_self (n := ⟨.block (Step.nameAmong source t.keys id).1 f [], parent, []⟩) new
    have below := bearing_addChildren children (Step.nameAmong source t.keys id).2 _ own (by
      rw [keys_addNode, List.append_assoc]; exact h)
    rw [keys_addNode] at below
    refine ⟨⟨below.host, below.bears⟩, fun x hx => ?_, below.roots⟩
    have hne : x ≠ (Step.nameAmong source t.keys id).1 := fun he => new (he ▸ hx)
    rw [below.kept x (by rw [keys_addNode]; exact List.mem_append_left _ hx) hne, get?_addNode_ne new hne]

theorem bearing_addChildren : ∀ (steps : List Step) (source : IdSource) (t : StepTree) {p : StepId} {n : Node},
    t.get? p = some n → (t.keys ++ Step.idsOf (Step.renamed source t.keys steps).1).Nodup →
      BearingAll t (t.addChildren source p steps).1 p n (Step.renamed source t.keys steps).1
  | [], source, t, p, n, hn, _ => by
    rw [addChildren]
    refine ⟨trivial, ?_, fun _ _ _ => rfl, rfl⟩
    rw [hn]
    simp [Step.renamed, Node.mapChildren]
  | s :: rest, source, t, p, n, hn, h => by
    rw [Step.renamed_cons] at h ⊢
    rw [Step.idsOf, ← List.append_assoc] at h
    rw [addChildren_cons]
    have hp := mem_keys_of_get? hn
    obtain ⟨name, keys, src⟩ := names_addSubtree s source t (some p)
    have first := bearing_addSubtree s source t (some p) (List.nodup_append.1 h).1
    rw [src]
    rw [← keys] at h ⊢
    generalize (Step.renamedIn source t.keys s).1 = s' at *
    generalize (t.addSubtree source (some p) s).2.1 = t₁ at *
    rw [name]
    -- the children of the parent are the one thing that changes beside the new nodes
    have hn₁ : t₁.get? p = some n := (first.kept p hp).trans hn
    have tied := modifySiblings_some (f := (· ++ [s'.id])) (contains_of_get? hn₁)
    have hn₂ : (t₁.modifySiblings (some p) (· ++ [s'.id])).get? p = some (n.mapChildren (· ++ [s'.id])) := by
      rw [tied]; exact get?_modifyNode_self hn₁
    have elsewhere : ∀ x, x ≠ p → (t₁.modifySiblings (some p) (· ++ [s'.id])).get? x = t₁.get? x := fun x hx => by
      rw [tied, get?_modifyNode_ne hx]
    have below := bearing_addChildren rest (Step.renamedIn source t.keys s).2 _ hn₂ (by
      rw [keys_modifySiblings]
      exact h)
    rw [keys_modifySiblings] at below
    have mem : ∀ x, x ∈ t.keys ∨ x ∈ s'.ids → x ∈ t₁.keys := fun x hx => by rw [keys]; exact List.mem_append.2 hx
    constructor
    case bears =>
      refine ⟨first.bears.of_same fun x hx => ?_, below.bears⟩
      have hne : x ≠ p := by
        rintro rfl
        rw [keys] at h
        exact List.disjoint_of_nodup_append (List.nodup_append.1 h).1 hp hx
      rw [below.kept x (by rw [keys_modifySiblings]; exact mem x (.inr hx)) hne, elsewhere x hne]
    case host =>
      rw [below.host]
      simp [Node.mapChildren]
    case kept =>
      intro x hx hne
      rw [below.kept x (by rw [keys_modifySiblings]; exact mem x (.inl hx)) hne, elsewhere x hne, first.kept x hx]
    case roots =>
      rw [below.roots, tied, roots_modifyNode, first.roots]

end

theorem bearing_addRoots : ∀ (steps : List Step) (source : IdSource) (t : StepTree),
    (t.keys ++ Step.idsOf (Step.renamed source t.keys steps).1).Nodup →
      let r := (addRoots source t steps).1
      let added := (Step.renamed source t.keys steps).1
      r.BearsAll none added ∧ r.roots = t.roots ++ added.map Step.id ∧ ∀ x ∈ t.keys, r.get? x = t.get? x
  | [], source, t, _ => by
    rw [addRoots]
    exact ⟨trivial, (List.append_nil _).symm, fun _ _ => rfl⟩
  | s :: rest, source, t, h => by
    rw [Step.renamed_cons] at h ⊢
    rw [Step.idsOf, ← List.append_assoc] at h
    rw [addRoots_cons]
    obtain ⟨name, keys, src⟩ := names_addSubtree s source t none
    have first := bearing_addSubtree s source t none (List.nodup_append.1 h).1
    rw [src]
    rw [← keys] at h ⊢
    generalize (Step.renamedIn source t.keys s).1 = s' at *
    generalize (t.addSubtree source none s).2.1 = t₁ at *
    rw [name]
    obtain ⟨bears, roots, kept⟩ := bearing_addRoots rest (Step.renamedIn source t.keys s).2
      (t₁.modifySiblings none (· ++ [s'.id])) (by rw [keys_modifySiblings]; exact h)
    rw [keys_modifySiblings] at bears roots kept
    have mem : ∀ x, x ∈ t.keys ∨ x ∈ s'.ids → x ∈ t₁.keys := fun x hx => by rw [keys]; exact List.mem_append.2 hx
    refine ⟨⟨first.bears.of_same fun x hx => kept x (mem x (.inr hx)), bears⟩, ?_, fun x hx => ?_⟩
    · rw [roots]
      show t₁.roots ++ [s'.id] ++ _ = _
      rw [first.roots, List.map_cons, List.append_assoc]
      rfl
    · rw [kept x (mem x (.inl hx))]
      exact first.kept x hx

/-! ## Steps with names of their own -/

mutual

/-- Steps with names of their own take none from the source, so it does not matter which source it is. -/
theorem addSubtree_of_nodup : ∀ (s : Step) (source source' : IdSource) (t : StepTree) (parent : Option StepId),
    (t.keys ++ s.ids).Nodup → (t.addSubtree source parent s).2.1 = (t.addSubtree source' parent s).2.1
  | .leaf id a, source, source', t, parent, h => by
    have own : id ∉ t.keys := fun hk => List.disjoint_of_nodup_append h hk (List.mem_singleton_self id)
    simp only [addSubtree_leaf, nameFor_eq, Step.nameAmong_of_not_mem own]
  | .block id f children, source, source', t, parent, h => by
    have own : id ∉ t.keys := fun hk => List.disjoint_of_nodup_append h hk (List.mem_cons_self ..)
    simp only [addSubtree_block, nameFor_eq, Step.nameAmong_of_not_mem own]
    refine addChildren_of_nodup children source source' _ id ?_
    rwa [keys_addNode, List.append_assoc]

theorem addChildren_of_nodup : ∀ (steps : List Step) (source source' : IdSource) (t : StepTree) (p : StepId),
    (t.keys ++ Step.idsOf steps).Nodup → (t.addChildren source p steps).1 = (t.addChildren source' p steps).1
  | [], _, _, _, _, _ => by rw [addChildren, addChildren]
  | s :: rest, source, source', t, p, h => by
    rw [Step.idsOf, ← List.append_assoc] at h
    have first := (List.nodup_append.1 h).1
    obtain ⟨name, keys, -⟩ := names_addSubtree s source t (some p)
    obtain ⟨name', -, -⟩ := names_addSubtree s source' t (some p)
    rw [Step.renamedIn_of_nodup first] at name name' keys
    rw [addChildren_cons, addChildren_cons, name, name', ← addSubtree_of_nodup s source source' t (some p) first]
    refine addChildren_of_nodup rest _ _ _ p ?_
    rwa [keys_modifySiblings, keys]

end

theorem addRoots_of_nodup : ∀ (steps : List Step) (source source' : IdSource) (t : StepTree),
    (t.keys ++ Step.idsOf steps).Nodup → (addRoots source t steps).1 = (addRoots source' t steps).1
  | [], _, _, _, _ => by rw [addRoots, addRoots]
  | s :: rest, source, source', t, h => by
    rw [Step.idsOf, ← List.append_assoc] at h
    have first := (List.nodup_append.1 h).1
    obtain ⟨name, keys, -⟩ := names_addSubtree s source t none
    obtain ⟨name', -, -⟩ := names_addSubtree s source' t none
    rw [Step.renamedIn_of_nodup first] at name name' keys
    rw [addRoots_cons, addRoots_cons, name, name', ← addSubtree_of_nodup s source source' t none first]
    refine addRoots_of_nodup rest _ _ _ ?_
    rwa [keys_modifySiblings, keys]

/-- There is a fresh source for every list of names. -/
theorem exists_fresh (used : List String) : ∃ source : IdSource, source.Fresh used := by
  obtain ⟨bound, longest⟩ := (used.map String.length).toFinset.exists_le
  refine ⟨dollars bound, dollars_fresh fun x hx => longest x.length ?_⟩
  exact List.mem_toFinset.2 (List.mem_map_of_mem hx)

/-- The tree of nested steps with distinct names is well-formed and has these nested steps, and no name is taken from
the source. -/
theorem ofSteps_of_nodup (nodup : (Step.idsOf steps).Nodup) (source : IdSource) :
    (ofSteps source steps).1.WF ∧ (ofSteps source steps).1.toSteps = steps ∧ (ofSteps source steps).2 = source := by
  have own : (empty.keys ++ Step.idsOf steps).Nodup := nodup
  have none : Step.renamed source empty.keys steps = (steps, source) := Step.renamed_of_nodup own
  obtain ⟨-, src⟩ := names_addRoots steps source empty
  have borne := bearing_addRoots steps source empty
  rw [none] at borne src
  obtain ⟨bears, roots, -⟩ := borne own
  have wf : (ofSteps source steps).1.WF := by
    obtain ⟨fresh, hf⟩ := exists_fresh (Step.idsOf steps)
    rw [ofSteps, addRoots_of_nodup steps source fresh empty own]
    exact wf_ofSteps steps hf
  exact ⟨wf, wf.toSteps_eq roots bears, src⟩

end StepTree

end StepTimer
