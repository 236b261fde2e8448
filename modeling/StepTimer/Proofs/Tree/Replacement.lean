/-
Replacement on the nested steps. A step is exchanged in its place for another one under its name, and the nodes outside
of it stay. The given children are checked one by one against the tree without the old ones, and not against each other:
names that repeat in one child, or are used elsewhere in the tree, are refused, but a name that two children share is
accepted and the later one renamed.
-/
import StepTimer.Proofs.Tree.Moves

namespace StepTimer

namespace Step

variable {source : IdSource} {used extra : List StepId} {id : StepId}

theorem nameAmong_append (h : id ∉ extra) : nameAmong source (extra ++ used) id = nameAmong source used id := by
  simp [nameAmong, h]

mutual

theorem renamedIn_append : ∀ (s : Step) (source : IdSource) (used : List StepId), (∀ x ∈ s.ids, x ∉ extra) →
    renamedIn source (extra ++ used) s = renamedIn source used s
  | leaf id a, source, used, h => by
    rw [renamedIn, renamedIn, nameAmong_append (h id (List.mem_singleton_self id))]
  | block id f children, source, used, h => by
    rw [renamedIn_block, renamedIn_block, nameAmong_append (h id (List.mem_cons_self ..)), List.append_assoc,
      renamed_append children _ _ fun x hx => h x (List.mem_cons_of_mem _ hx)]

/-- Used names that do not occur in the steps do not matter. -/
theorem renamed_append : ∀ (steps : List Step) (source : IdSource) (used : List StepId),
    (∀ x ∈ idsOf steps, x ∉ extra) → renamed source (extra ++ used) steps = renamed source used steps
  | [], _, _, _ => by rw [renamed, renamed]
  | s :: rest, source, used, h => by
    rw [renamed_cons, renamed_cons, renamedIn_append s source used fun x hx => h x (List.mem_append_left _ hx),
      List.append_assoc, renamed_append rest _ _ fun x hx => h x (List.mem_append_right _ hx)]

end

end Step

namespace StepTree

variable {t r : StepTree} {id x : StepId} {n : Node} {old new : Step} {given : List Step} {source : IdSource}
  {parent : Option StepId}

theorem bears_withChildren (own : t.get? new.id = some ⟨new.bare, parent, given.map Step.id⟩)
    (leafless : new.isContainer = false → given = []) (below : t.BearsAll (some new.id) given) :
    t.Bears parent (new.withChildren given) := by
  refine bears_iff.2 ?_
  rw [Step.id_withChildren, Step.bare_withChildren, Step.children_withChildren leafless]
  exact ⟨own, below⟩

/-- The table bears the step of a node without children. -/
theorem bears_childless (own : t.get? new.id = some ⟨new, parent, []⟩) (childless : new.children = []) :
    t.Bears parent new := by
  refine bears_iff.2 ?_
  rw [Step.bare_of_children_eq_nil childless, childless]
  exact ⟨own, trivial⟩

/-- When another step is borne in the place of one and the nodes outside stay, the one is exchanged for the other. -/
theorem WF.grafted (hw : t.WF) (hr : r.WF) (hid : new.id = id) (roots : r.roots = t.roots)
    (own : r.Bears (t.parentOf id) new) (same : ∀ x ∈ Step.idsOf (Step.cut id t.toSteps), r.get? x = t.get? x) :
    r.toSteps = Step.graft id new t.toSteps := by
  obtain ⟨names, all⟩ := hw.bears_toSteps
  refine hr.toSteps_eq ?_ (BearsAll.graft hid own all same)
  rw [Step.map_id_graft hid, names, roots]

/-- Whether the children that a replacement gives are refused: in one of them a name repeats, or is used in the tree
outside of the old children. -/
def Refuses (t : StepTree) (old : Step) (given : List Step) : Prop :=
  ∃ c ∈ given, ¬ c.ids.Nodup ∨ ∃ x ∈ c.ids, x ∈ Step.idsOf t.toSteps ∧ x ∉ Step.idsOf old.children

/-- The tree in which a step has lost its children. -/
def emptied (t : StepTree) (id : StepId) (n : Node) : StepTree :=
  (n.children.foldl removeSubtree t).modifyNode id fun n => { n with children := [] }

/-- The tree in which the node of a name has another step. -/
def withStep (t : StepTree) (id : StepId) (s : Step) : StepTree := t.modifyNode id fun n => { n with step := s }

/-- A step that has lost its children is exchanged for one without any. -/
theorem WF.grafted_emptied (hw : t.WF) (hs : t.find? id = some old) (hn : t.get? id = some n) :
    (∀ x ∈ Step.idsOf (Step.cut id t.toSteps), (t.emptied id n).get? x = t.get? x) ∧
      (t.emptied id n).toSteps = Step.graft id n.step t.toSteps := by
  obtain ⟨names, all⟩ := hw.bears_toSteps
  have drop : Dropped _ [] (t.emptied id n) := dropped_cleared hw hn
  obtain ⟨loose, leafless, own, -⟩ := cleared hw hn
  have payload := hw.payload id n hn
  have elsewhere : ∀ x ∈ Step.idsOf (Step.cut id t.toSteps),
      (t.modifyNode id (Node.mapChildren fun _ => [])).get? x = t.get? x :=
    fun x hx => get?_modifyNode_ne fun he => Step.not_mem_idsOf_cut t.toSteps (he ▸ hx)
  -- emptied first, the tree bears the steps with an empty one in the place of the old one
  have bare : (t.modifyNode id (Node.mapChildren fun _ => [])).BearsAll none (Step.graft id n.step t.toSteps) := by
    refine BearsAll.graft payload.1 (bears_childless ?_ payload.2) all elsewhere
    rw [payload.1, get?_modifyNode_self hn, parentOf_of_get? hn]
    rfl
  have outside : ∀ x ∈ Step.idsOf (Step.cut id t.toSteps), (t.emptied id n).get? x = t.get? x := by
    intro x hx
    have inGraft : x ∈ Step.idsOf (Step.graft id n.step t.toSteps) :=
      (Step.mem_idsOf_graft hw.nodup_toSteps (hw.find?_toSteps hs)).2 (.inl hx)
    have hung := bare.hung (fun c hc => .top (by rwa [Step.map_id_graft payload.1, names] at hc)) x inGraft
    exact (drop.kept t.roots (fun y hy => hy) x hung).1.trans (elsewhere x hx)
  refine ⟨outside, hw.grafted (loose.wf leafless) payload.1 drop.roots ?_ outside⟩
  refine bears_childless ?_ payload.2
  rw [payload.1, parentOf_of_get? hn]
  exact own

/-- The names left are those outside of the old children. -/
theorem WF.mem_keys_emptied (hw : t.WF) (hs : t.find? id = some old) (hn : t.get? id = some n) :
    x ∈ (t.emptied id n).keys ↔ x ∈ Step.idsOf t.toSteps ∧ x ∉ Step.idsOf old.children := by
  obtain ⟨loose, leafless, -⟩ := cleared hw hn
  have wf : (t.emptied id n).WF := loose.wf leafless
  have nodup := hw.nodup_toSteps
  have found := hw.find?_toSteps hs
  have inTree : id ∈ Step.idsOf t.toSteps := Step.mem_idsOf_of_find? found
  have distinct := Step.nodup_ids_of_find? nodup found
  obtain ⟨name, childless⟩ := hw.payload id n hn
  have single : x ∈ n.step.ids ↔ x = id := by
    rw [Step.ids_eq_cons, childless, name]
    exact List.mem_singleton
  rw [← wf.mem_idsOf_toSteps, (hw.grafted_emptied hs hn).2, Step.mem_idsOf_graft nodup found,
    Step.mem_idsOf_cut nodup found, single]
  rw [Step.ids_eq_cons, (hw.bears_of_find? hs).1] at distinct ⊢
  obtain ⟨notBelow, -⟩ := List.nodup_cons.1 distinct
  constructor
  · rintro (⟨hx, out⟩ | rfl)
    · exact ⟨hx, fun h => out (List.mem_cons_of_mem _ h)⟩
    · exact ⟨inTree, notBelow⟩
  · rintro ⟨hx, out⟩
    by_cases he : x = id
    · exact .inr he
    · exact .inl ⟨hx, fun h => (List.mem_cons.1 h).elim he out⟩

/-- A tree in which the step has other children, and nothing else is changed outside of it, has the new step with these
children in its place when the new step comes to its node. -/
theorem WF.exchanged {c : StepTree} (hw : t.WF) (hid : new.id = id) (wf : (c.withStep id new.bare).WF)
    (roots : c.roots = t.roots) (own : ∃ s, c.get? id = some ⟨s, t.parentOf id, given.map Step.id⟩)
    (leafless : new.isContainer = false → given = []) (below : c.BearsAll (some id) given)
    (apart : id ∉ Step.idsOf given) (same : ∀ x ∈ Step.idsOf (Step.cut id t.toSteps), c.get? x = t.get? x) :
    (c.withStep id new.bare).toSteps = Step.graft id (new.withChildren given) t.toSteps ∧
      ∀ x ∈ Step.idsOf (Step.cut id t.toSteps), (c.withStep id new.bare).get? x = t.get? x := by
  obtain ⟨s, own⟩ := own
  have elsewhere : ∀ x, x ≠ id → (c.withStep id new.bare).get? x = c.get? x := fun x hx => get?_modifyNode_ne hx
  have outside : ∀ x ∈ Step.idsOf (Step.cut id t.toSteps), (c.withStep id new.bare).get? x = t.get? x := by
    intro x hx
    rw [elsewhere x fun he => Step.not_mem_idsOf_cut t.toSteps (he ▸ hx), same x hx]
  subst hid
  refine ⟨hw.grafted wf (new.id_withChildren given) ?_ (bears_withChildren ?_ leafless ?_) outside, outside⟩
  · rw [withStep, roots_modifyNode, roots]
  · exact get?_modifyNode_self own
  · exact below.of_same fun x hx => elsewhere x fun he => apart (he ▸ hx)

theorem replace_keeping (hs : t.get? id = some n) (container : new.isContainer = true) (none : new.children = []) :
    t.replace source id new = (t.withStep id (new.withId id).bare, source) := by
  unfold replace
  rw [hs]
  simp [container, none, withStep]

/-- A block that is given no children keeps those it has. -/
theorem WF.replaced_keeping (hw : t.WF) (hs : t.find? id = some old) (container : new.isContainer = true)
    (none : new.children = []) :
    (t.replace source id new).1.toSteps = Step.graft id ((new.withId id).withChildren old.children) t.toSteps ∧
      ∀ x ∈ Step.idsOf (Step.cut id t.toSteps), (t.replace source id new).1.get? x = t.get? x := by
  obtain ⟨rfl, bears⟩ := hw.bears_of_find? hs
  obtain ⟨fresh, hf⟩ := exists_fresh (t.keys ++ Step.idsOf new.children)
  have wf := wf_replace hw old.id new hf
  have distinct := Step.nodup_ids_of_find? hw.nodup_toSteps (hw.find?_toSteps hs)
  rw [Step.ids_eq_cons] at distinct
  rw [replace_keeping bears.get? container none] at wf ⊢
  refine hw.exchanged (new.id_withId _) wf rfl ⟨_, bears.get?⟩ (fun action => ?_) bears.children
    (List.nodup_cons.1 distinct).1 fun _ _ => rfl
  rw [Step.isContainer_withId, container] at action
  cases action

/-- A replacement with children of its own, or by an action. -/
theorem replace_giving (hn : t.get? id = some n)
    (giving : ¬ (new.isContainer = true ∧ new.children = [])) :
    t.replace source id new =
      let added := (t.emptied id n).addChildren source id new.children
      if new.children.all (t.emptied id n).idsAreFree then (added.1.withStep id (new.withId id).bare, added.2)
      else (t, source) := by
  unfold replace
  rw [hn]
  refine if_neg ?_
  rwa [Bool.and_eq_true, List.isEmpty_iff]

theorem WF.all_free_iff (hw : t.WF) (hs : t.find? id = some old) (hn : t.get? id = some n) (given : List Step) :
    given.all (t.emptied id n).idsAreFree = true ↔ ¬ t.Refuses old given := by
  rw [List.all_eq_true]
  unfold Refuses
  push Not
  refine forall_congr' fun c => forall_congr' fun _ => ?_
  rw [idsAreFree_iff]
  refine and_congr_right fun _ => forall_congr' fun x => forall_congr' fun _ => ?_
  rw [hw.mem_keys_emptied hs hn]
  tauto

/-- Children whose names are not used in a table are added to it under the names that are left for them. -/
theorem WF.added_children (hw : t.WF) (hn : t.get? id = some n) (given : List Step)
    (hf : source.Fresh (t.keys ++ Step.idsOf given)) (free : given.all (t.emptied id n).idsAreFree = true) :
    let named := (Step.renamed source [] given).1
    BearingAll (t.emptied id n) ((t.emptied id n).addChildren source id given).1 id (n.mapChildren fun _ => []) named ∧
      ((t.emptied id n).keys ++ Step.idsOf named).Nodup := by
  obtain ⟨loose, -, own, known⟩ := cleared hw hn
  change Loose (t.emptied id n) [] at loose
  change (t.emptied id n).get? id = _ at own
  change ∀ x ∈ (t.emptied id n).keys, x ∈ t.keys at known
  generalize t.emptied id n = c at *
  -- the given names are not used in the tree that they come to, so only the given ones count
  have unused : ∀ x ∈ Step.idsOf given, x ∉ c.keys := by
    intro x hx
    obtain ⟨s, hs, hx⟩ := Step.mem_idsOf.1 hx
    exact (idsAreFree_iff.1 (List.all_eq_true.1 free s hs)).2 x hx
  have same : Step.renamed source c.keys given = Step.renamed source [] given := by
    rw [← Step.renamed_append _ source [] unused, List.append_nil]
  have ext := extended [] source c id _ loose own given (hf.mono fun x hx => by
    rw [List.append_nil] at hx
    exact List.mem_append.2 ((List.mem_append.1 hx).imp_left (known x)))
  have distinct := ext.loose.nodupKeys
  have added := bearing_addChildren given source c own
  rw [(names_addChildren given source c id).1, same] at distinct
  rw [same] at added
  exact ⟨added distinct, distinct⟩

/-- Children that are not refused take the place of the old ones, each under the name that is left for it. -/
theorem WF.replaced_giving (hw : t.WF) (hs : t.find? id = some old)
    (hf : source.Fresh (t.keys ++ Step.idsOf new.children))
    (giving : ¬ (new.isContainer = true ∧ new.children = [])) (accepted : ¬ t.Refuses old new.children) :
    let named := (Step.renamed source [] new.children).1
    (t.replace source id new).1.toSteps = Step.graft id ((new.withId id).withChildren named) t.toSteps ∧
      (∀ x ∈ Step.idsOf (Step.cut id t.toSteps), (t.replace source id new).1.get? x = t.get? x) ∧
        (Step.idsOf named).Nodup := by
  intro named
  obtain ⟨n, hn⟩ := contains_iff.1 (mem_keys.1 (mem_keys_of_build hs))
  obtain ⟨outside, -⟩ := hw.grafted_emptied hs hn
  have own : (t.emptied id n).get? id = some (n.mapChildren fun _ => []) := (cleared hw hn).2.2.1
  have roots : (t.emptied id n).roots = t.roots := (dropped_cleared hw hn).roots
  have free := (hw.all_free_iff hs hn new.children).2 accepted
  have wf := wf_replace hw id new hf
  rw [replace_giving hn giving] at wf ⊢
  simp only [if_pos free] at wf ⊢
  obtain ⟨added, distinct⟩ := hw.added_children hn new.children hf free
  generalize ((t.emptied id n).addChildren source id new.children).1 = t₁ at *
  have apart : id ∉ Step.idsOf named := List.disjoint_of_nodup_append distinct (mem_keys_of_get? own)
  have kept : ∀ x ∈ Step.idsOf (Step.cut id t.toSteps), t₁.get? x = t.get? x := by
    intro x hx
    have hne : x ≠ id := fun he => Step.not_mem_idsOf_cut t.toSteps (he ▸ hx)
    obtain ⟨m, hm⟩ := contains_iff.1 (mem_keys.1 (hw.mem_idsOf_toSteps.1 (Step.idsOf_cut_subset t.toSteps hx)))
    rw [added.kept x (mem_keys_of_get? ((outside x hx).trans hm)) hne, outside x hx]
  have exchanged := hw.exchanged (new.id_withId id) wf (added.roots.trans roots) ⟨n.step, ?_⟩ (fun action => ?_)
    added.bears apart kept
  · exact ⟨exchanged.1, exchanged.2, (List.nodup_append.1 distinct).2.1⟩
  · rw [added.host, parentOf_of_get? hn]
    rfl
  · -- an action comes without children
    cases new with
    | leaf _ a => rfl
    | block _ f children => cases action

/-- Replacement, as it is. A name that is there keeps its place; outside of its step nothing changes. A block that is
given no children keeps those it has. Otherwise the given children are looked at one by one: if in one of them a name
repeats or is used in the tree outside of the old children, nothing changes at all, and else they take the place of the
old ones. A name that two of them share is not seen, and the later of the two comes under another name; they all keep
their names exactly when no name repeats anywhere in them. -/
theorem replace_children_one_by_one (hw : t.WF) (hs : t.find? id = some old) (source : IdSource) (new : Step)
    (hf : source.Fresh (t.keys ++ Step.idsOf new.children)) :
    let step := new.withId id
    let given := new.children
    let named := (Step.renamed source [] given).1
    let keeps := new.isContainer = true ∧ given = []
    let r := (t.replace source id new).1
    (keeps → r.toSteps = Step.graft id (step.withChildren old.children) t.toSteps) ∧
      (¬ keeps → t.Refuses old given → r = t) ∧
        (¬ keeps → ¬ t.Refuses old given → r.toSteps = Step.graft id (step.withChildren named) t.toSteps ∧
          (named = given ↔ (Step.idsOf given).Nodup)) ∧
            ∀ x ∈ Step.idsOf (Step.cut id t.toSteps), r.get? x = t.get? x := by
  intro step given named keeps r
  have refused : ¬ keeps → t.Refuses old given → r = t := by
    intro giving h
    obtain ⟨hid, bears⟩ := hw.bears_of_find? hs
    have hn := bears.get?
    rw [hid] at hn
    have taken := mt (hw.all_free_iff hs hn given).1 (not_not.2 h)
    show (t.replace source id new).1 = t
    rw [replace_giving hn giving]
    simp only [given] at taken
    rw [if_neg taken]
  refine ⟨fun h => (hw.replaced_keeping hs h.1 h.2).1, refused, fun giving accepted => ?_, ?_⟩
  · obtain ⟨nested, -, distinct⟩ := hw.replaced_giving hs hf giving accepted
    refine ⟨nested, fun h => by rw [← h]; exact distinct, fun h => ?_⟩
    have own : Step.renamed source [] given = (given, source) := Step.renamed_of_nodup h
    exact congrArg Prod.fst own
  · by_cases h : keeps
    · exact (hw.replaced_keeping hs h.1 h.2).2
    · by_cases hr : t.Refuses old given
      · rw [refused h hr]
        exact fun _ _ => rfl
      · exact (hw.replaced_giving hs hf h hr).2.1

/-- In the place of a loop without steps comes one with two steps of one name: it takes them both, the second one under a
name of the source, and has the name of the old loop itself. -/
theorem replace_children_one_by_one_shared :
    let t := (ofSteps (dollars 1) [Step.block "a" (.loop .infinite) []]).1
    let given := [Step.leaf "b" .unknown, .leaf "b" .unknown]
    t.WF ∧ ¬ (Step.idsOf given).Nodup ∧ (t.replace (dollars 1) "a" (.block "d" (.loop .infinite) given)).1.toSteps =
      [.block "a" (.loop .infinite) [.leaf "b" .unknown, .leaf "$$" .unknown]] := by
  intro t given
  have hw : t.WF := (ofSteps_of_nodup (by decide) _).1
  have found : t.find? "a" = some (.block "a" (.loop .infinite) []) := by rfl
  obtain ⟨-, -, taken, -⟩ := replace_children_one_by_one hw found (dollars 1)
    (.block "d" (.loop .infinite) given) (dollars_fresh (by decide))
  have giving : ¬ ((Step.block "d" (.loop .infinite) given).isContainer = true ∧ given = []) := by
    exact fun h => List.cons_ne_nil _ _ h.2
  have accepted : ¬ t.Refuses (.block "a" (.loop .infinite) []) given := by
    rintro ⟨c, hc, h⟩
    have hc : c = .leaf "b" .unknown := by simpa [given] using hc
    subst hc
    rcases h with h | ⟨x, hx, inTree, -⟩
    · exact h (by decide)
    · rw [List.mem_singleton.1 hx] at inTree
      exact absurd inTree (by decide)
  exact ⟨hw, by decide, (taken giving accepted).1.trans (by rfl)⟩

end StepTree

end StepTimer
