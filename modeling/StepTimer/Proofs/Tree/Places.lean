/-
The places of a tree, as its nested steps have them. A drop target that has a place means exactly one list of
siblings, and a name put there stands in that list where the target puts it, and in no other one. Taking a name out
of its list takes it out of all lists.
-/
import StepTimer.Proofs.Tree.Bears

namespace StepTimer

namespace StepTree

variable {t t' : StepTree} {id new p x y : StepId} {n m : Node} {ls names : List StepId} {target : DropTarget}
  {slot : Slot}

/-! ## Taking a name out of its list -/

/-- A list without a name is the list as it was, if it did not have the name. -/
theorem filter_ne_of_not_mem (h : id ∉ names) : (names.filter fun x => x ≠ id) = names :=
  List.filter_eq_self.2 fun _ hx => decide_eq_true fun he => h (he ▸ hx)

theorem without_of_not_mem (h : id ∉ n.children) : n.without id = n := by
  rw [Node.without, Node.mapChildren, filter_ne_of_not_mem h]

theorem Loose.roots_detach (hl : Loose t []) (id : StepId) : (t.detach id).roots = t.roots.filter fun x => x ≠ id := by
  unfold StepTree.detach
  rcases hu : t.parentOf id with _ | q
  · rfl
  · have notTop : id ∉ t.roots := fun h => by rw [hl.root id h] at hu; cases hu
    obtain ⟨n, hn, -⟩ := get?_of_parentOf hu
    rcases hl.place_cases (mem_keys_of_get? hn) with h | ⟨h, -⟩ | ⟨r, m, hm, -, hr⟩
    · cases h
    · exact absurd h notTop
    · rw [hu] at hr; cases hr
      rw [modifySiblings_some (contains_of_get? hm), filter_ne_of_not_mem notTop]; rfl

/-- A name that is taken out of its list is in no list, and otherwise the nodes stay as they are. -/
theorem Loose.get?_detach (hl : Loose t []) (id x : StepId) :
    (t.detach id).get? x = (t.get? x).map (Node.without id) := by
  have elsewhere : ∀ q n, t.get? q = some n → t.parentOf id ≠ some q → n.without id = n := fun q n hn hne =>
    without_of_not_mem fun h => hne (hl.child q n hn id h)
  unfold StepTree.detach
  rcases hu : t.parentOf id with _ | q
  · -- a top name is among no children
    show t.get? x = _
    rcases hx : t.get? x with _ | n
    · rfl
    · rw [Option.map_some, elsewhere x n hx (by rw [hu]; exact fun h => by cases h)]
  · obtain ⟨n, hn, -⟩ := get?_of_parentOf hu
    rcases hl.place_cases (mem_keys_of_get? hn) with h | ⟨-, h⟩ | ⟨r, m, hm, -, hr⟩
    · cases h
    · rw [hu] at h; cases h
    · rw [hu] at hr; cases hr
      rw [modifySiblings_some (contains_of_get? hm), get?_modifyNode]
      rcases hx : t.get? x with _ | k
      · rfl
      · by_cases hxq : x = q
        · rw [Option.map_some, Option.map_some, if_pos hxq]; rfl
        · have : t.parentOf id ≠ some x := by rw [hu]; exact fun h => hxq (Option.some.inj h).symm
          rw [Option.map_some, Option.map_some, if_neg hxq, elsewhere x k hx this]

/-! ## Putting a name into a list -/

/-- The index of a name in a list, as the place before it and the place after it. -/
theorem idxOf?_of_mem (parent : Option StepId) (new : StepId) : ∀ {names : List StepId}, names.Nodup → y ∈ names →
    ∃ i, names.idxOf? y = some i ∧
    names.insertIdx i new = (DropTarget.relative y .before).put (fun x => x) parent new names ∧
      names.insertIdx (i + 1) new = (DropTarget.relative y .after).put (fun x => x) parent new names
  | [], _, h => by cases h
  | c :: rest, nodup, h => by
    obtain ⟨notIn, nodup⟩ := List.nodup_cons.1 nodup
    simp only [DropTarget.put, List.flatMap_cons]
    by_cases hc : c = y
    · subst hc
      have same (a : StepId → List StepId) : (rest.flatMap fun s => if s = c then a s else [s]) = rest :=
        DropTarget.flatMap_ite_of_not_mem a (by rwa [List.map_id' rest])
      refine ⟨0, by simp [List.idxOf?_cons], ?_, ?_⟩
      · rw [if_pos rfl, same fun s => [new, s]]; rfl
      · rw [if_pos rfl, same fun s => [s, new]]; rfl
    · obtain ⟨i, hi, before, after⟩ := idxOf?_of_mem parent new nodup ((List.mem_cons.1 h).resolve_left (Ne.symm hc))
      simp only [DropTarget.put] at before after
      refine ⟨i + 1, by simp [List.idxOf?_cons, hc, hi], ?_, ?_⟩
      · rw [if_neg hc, ← before]; rfl
      · rw [if_neg hc, ← after]; rfl

/-- Whether a drop target has a place in a tree: the step that it names is there, and can hold children if the target is
inside of it. -/
def HasPlace (t : StepTree) (target : DropTarget) : Prop :=
  ∀ y position, target = .relative y position →
    ∃ n, t.get? y = some n ∧ (position = .inside → n.step.isContainer = true)

/-- What the slot of a target stands for: the one list of siblings that the target means, at the index where it puts a
name. -/
structure Slot.Stands (slot : Slot) (t : StepTree) (target : DropTarget) : Prop where
  list : ∃ names, t.siblings slot.parent = some names ∧
    ∀ new, names.insertIdx slot.index new = target.put (fun x => x) slot.parent new names
  only : ∀ parent names, t.siblings parent = some names → target.Means parent names → parent = slot.parent

/-- A step that is not loose is in the list of its parent and in no other one. -/
theorem Loose.list_of_get? (hl : Loose t ls) (hn : t.get? y = some n) (hy : y ∉ ls) :
    (∃ names, t.siblings n.parent = some names ∧ y ∈ names ∧ names.Nodup) ∧
      ∀ parent names, t.siblings parent = some names → y ∈ names → parent = n.parent := by
  have up := parentOf_of_get? hn
  constructor
  · rcases hl.place_cases (mem_keys_of_get? hn) with h | ⟨h, hp⟩ | ⟨q, m, hm, h, hp⟩
    · exact absurd h hy
    · rw [← up, hp]
      exact ⟨t.roots, rfl, h, hl.nodup_roots⟩
    · rw [← up, hp]
      exact ⟨m.children, siblings_of_get? hm, h, hl.nodup_children hm⟩
  · intro parent names hnames hmem
    rw [← up]
    cases parent with
    | none => cases hnames; exact (hl.root y hmem).symm
    | some q =>
      obtain ⟨m, hm, rfl⟩ := siblings_some hnames
      exact (hl.child q m hm y hmem).symm

/-- A target with a place has a slot, also in the middle of an edit, if the step that it names is not loose. -/
theorem Loose.slotFor_stands (hl : Loose t ls) (tied : ∀ y position, target = .relative y position → y ∉ ls)
    (h : t.HasPlace target) : ∃ slot, t.slotFor target = some slot ∧ slot.Stands t target := by
  cases target with
  | rootStart => exact ⟨⟨none, 0⟩, rfl, ⟨t.roots, rfl, fun _ => rfl⟩, fun _ _ _ means => means⟩
  | rootEnd =>
    refine ⟨⟨none, t.roots.length⟩, rfl, ⟨t.roots, rfl, fun new => ?_⟩, fun _ _ _ means => means⟩
    exact List.insertIdx_length_self
  | relative y position =>
    obtain ⟨n, hn, container⟩ := h y position rfl
    obtain ⟨⟨names, hnames, hmem, nodup⟩, only⟩ := hl.list_of_get? hn (tied y position rfl)
    obtain ⟨i, hi, -⟩ := idxOf?_of_mem n.parent y nodup hmem
    cases position with
    | inside =>
      refine ⟨⟨some y, n.children.length⟩, by simp [slotFor, hn, container rfl], ⟨n.children, siblings_of_get? hn,
        fun new => ?_⟩, fun _ _ _ means => means⟩
      rw [DropTarget.put, if_pos rfl]
      exact List.insertIdx_length_self
    | before =>
      refine ⟨⟨n.parent, i⟩, by simp [slotFor, hn, hnames, hi], ⟨names, hnames, fun new => ?_⟩, only⟩
      obtain ⟨j, hj, before, -⟩ := idxOf?_of_mem n.parent new nodup hmem
      rw [hi] at hj; cases hj
      exact before
    | after =>
      refine ⟨⟨n.parent, i + 1⟩, by simp [slotFor, hn, hnames, hi], ⟨names, hnames, fun new => ?_⟩, only⟩
      obtain ⟨j, hj, -, after⟩ := idxOf?_of_mem n.parent new nodup hmem
      rw [hi] at hj; cases hj
      exact after

/-- A target without a place has no slot. -/
theorem slotFor_of_not_hasPlace (h : ¬ t.HasPlace target) : t.slotFor target = none := by
  by_contra hsome
  obtain ⟨slot, hslot⟩ := Option.ne_none_iff_exists'.1 hsome
  refine h ?_
  rintro y position rfl
  obtain ⟨n, hn, ⟨-, container, -⟩ | ⟨names, i, -, -, ⟨rfl, -⟩ | ⟨rfl, -⟩⟩⟩ := slotFor_relative hslot
  · exact ⟨n, hn, fun _ => container⟩
  · exact ⟨n, hn, fun h => by cases h⟩
  · exact ⟨n, hn, fun h => by cases h⟩

theorem Loose.stands_of_slotFor (hl : Loose t ls) (tied : ∀ y position, target = .relative y position → y ∉ ls)
    (h : t.slotFor target = some slot) : slot.Stands t target := by
  have place : t.HasPlace target := by
    by_contra hno
    rw [slotFor_of_not_hasPlace hno] at h
    cases h
  obtain ⟨slot', hslot', stands⟩ := hl.slotFor_stands tied place
  rw [h] at hslot'
  cases hslot'
  exact stands

/-- A name that is put into the list of a slot stands in each list where the target puts it. -/
theorem Slot.Stands.place (h : slot.Stands t target) (new : StepId) :
    (t.place slot new).roots = target.put (fun x => x) none new t.roots ∧
      ∀ x, (t.place slot new).get? x = (t.get? x).map (Node.listing target x new) := by
  -- the lists that the target does not mean stay
  have elsewhere : ∀ parent names, t.siblings parent = some names → parent ≠ slot.parent →
      target.put (fun x => x) parent new names = names := fun parent names hnames hne =>
    DropTarget.put_of_not_means fun means => hne (h.only parent names hnames (by rwa [List.map_id' names] at means))
  obtain ⟨names, hnames, here⟩ := h.list
  unfold StepTree.place
  rcases hp : slot.parent with _ | p
  · rw [hp] at hnames here elsewhere; cases hnames
    refine ⟨here new, fun x => ?_⟩
    show t.get? x = _
    rcases hx : t.get? x with _ | n
    · rfl
    · rw [Option.map_some, Node.listing, Node.mapChildren,
        elsewhere (some x) n.children (siblings_of_get? hx) (by simp)]
  · rw [hp] at hnames here elsewhere
    obtain ⟨m, hm, rfl⟩ := siblings_some hnames
    rw [modifySiblings_some (contains_of_get? hm)]
    refine ⟨(elsewhere none t.roots rfl (by simp)).symm, fun x => ?_⟩
    rw [get?_modifyNode]
    rcases hx : t.get? x with _ | n
    · rfl
    · rw [Option.map_some, Option.map_some, Node.listing]
      by_cases hxp : x = p
      · subst hxp
        rw [hm] at hx; cases hx
        rw [if_pos rfl, Node.mapChildren, Node.mapChildren, here new]
      · rw [if_neg hxp, Node.mapChildren, elsewhere (some x) n.children (siblings_of_get? hx) (by simpa using hxp)]

/-- A target means no list of another parent and no children of an action. -/
theorem Slot.Stands.hosts (h : slot.Stands t target) (fits : slot.Fits t) {s : Step} (hs : t'.Bears slot.parent s) :
    t.Hosts t' target s := by
  constructor
  case block =>
    intro x n hx action means
    obtain ⟨m, hm, block⟩ := fits.block x (h.only _ _ (siblings_of_get? hx) means).symm
    rw [hx] at hm; cases hm
    rw [block] at action; cases action
  case bears =>
    intro x n hx means
    rw [h.only _ _ (siblings_of_get? hx) means]
    exact hs

end StepTree

end StepTimer
