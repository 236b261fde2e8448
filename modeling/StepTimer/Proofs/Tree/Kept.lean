/-
The settings in a tree. An edit makes no settings of its own: what holds of all settings of a tree and of
those that an edit brings in holds of all settings after the edit.
-/
import StepTimer.Proofs.App.Requests

namespace StepTimer

namespace StepTree

/-- What holds of the settings of all nodes. -/
def Holds (P : Settings → Prop) (t : StepTree) : Prop := ∀ e ∈ t.nodes, P e.2.step.settings

variable {P : Settings → Prop} {t : StepTree} {id : StepId} {n : Node} {source : IdSource}

/-! ## Changes of the table -/

theorem Holds.addNode (h : t.Holds P) (hn : P n.step.settings) : (t.addNode id n).Holds P := by
  intro e he
  rcases List.mem_append.1 he with he | he
  · exact h e he
  · rw [List.mem_singleton.1 he]; exact hn

theorem Holds.dropNode (h : t.Holds P) : (t.dropNode id).Holds P := fun e he => h e (List.mem_filter.1 he).1

theorem Holds.modifyNode (h : t.Holds P) {f : Node → Node} (hf : ∀ n, P n.step.settings → P (f n).step.settings) :
    (t.modifyNode id f).Holds P := by
  intro e he
  obtain ⟨e', he', rfl⟩ := List.mem_map.1 he
  split
  · exact hf e'.2 (h e' he')
  · exact h e' he'

theorem Holds.modifySiblings (h : t.Holds P) (parent : Option StepId) (f : List StepId → List StepId) :
    (t.modifySiblings parent f).Holds P := by
  unfold StepTree.modifySiblings
  split
  · exact h
  · split
    · exact h.modifyNode fun _ hn => hn
    · exact h

theorem Holds.get? (h : t.Holds P) (hn : t.get? id = some n) : P n.step.settings := h _ (mem_nodes_of_get? hn)

/-! ## Adding and dropping -/

mutual

theorem holds_addSubtree (source : IdSource) (t : StepTree) (parent : Option StepId) (h : t.Holds P) :
    ∀ s : Step, (∀ g ∈ s.settingsIn, P g) → (t.addSubtree source parent s).2.1.Holds P
  | .leaf id a, hs => by
    rw [addSubtree_leaf]
    exact h.addNode (hs _ (List.mem_singleton_self _))
  | .block id f children, hs => by
    rw [addSubtree_block]
    have own : P (.block f) := hs _ (List.mem_cons_self ..)
    refine holds_addChildren _ _ _ (h.addNode ?_) children fun g hg => hs g (List.mem_cons_of_mem _ hg)
    exact own

theorem holds_addChildren (source : IdSource) (t : StepTree) (parent : StepId) (h : t.Holds P) :
    ∀ steps : List Step, (∀ g ∈ Step.settingsOf steps, P g) → (t.addChildren source parent steps).1.Holds P
  | [], _ => by rw [addChildren]; exact h
  | s :: rest, hs => by
    rw [addChildren_cons]
    have added := holds_addSubtree source t (some parent) h s fun g hg => hs g (List.mem_append_left _ hg)
    exact holds_addChildren _ _ _ (added.modifySiblings _ _) rest fun g hg => hs g (List.mem_append_right _ hg)

end

theorem holds_addRoots : ∀ (steps : List Step) (source : IdSource) (t : StepTree), t.Holds P →
    (∀ g ∈ Step.settingsOf steps, P g) → (t.addRoots source steps).1.Holds P
  | [], _, _, h, _ => h
  | s :: rest, source, t, h, hs => by
    rw [addRoots_cons]
    have added := holds_addSubtree source t none h s fun g hg => hs g (List.mem_append_left _ hg)
    exact holds_addRoots rest _ _ (added.modifySiblings _ _) fun g hg => hs g (List.mem_append_right _ hg)

/-- The tree of nested steps has their settings. -/
theorem holds_ofSteps (source : IdSource) {steps : List Step} (hs : ∀ g ∈ Step.settingsOf steps, P g) :
    (ofSteps source steps).1.Holds P :=
  holds_addRoots steps source empty (fun e he => by cases he) hs

theorem holds_foldl {drop : StepTree → StepId → StepTree} (hd : ∀ t id, t.Holds P → (drop t id).Holds P) :
    ∀ (names : List StepId) (t : StepTree), t.Holds P → (names.foldl drop t).Holds P
  | [], _, h => h
  | id :: names, t, h => holds_foldl hd names (drop t id) (hd t id h)

theorem holds_dropSubtree : ∀ (fuel : Nat) (t : StepTree) (id : StepId), t.Holds P → (dropSubtree fuel t id).Holds P
  | 0, _, _, h => h
  | fuel + 1, t, id, h => by
    unfold dropSubtree
    split
    · exact h
    · exact holds_foldl (holds_dropSubtree fuel) _ _ h.dropNode

theorem Holds.removeSubtree (h : t.Holds P) (id : StepId) : (t.removeSubtree id).Holds P :=
  holds_dropSubtree t.count t id h

/-! ## Building -/

/-- A built step has settings of the tree. -/
theorem Holds.build (h : t.Holds P) : ∀ (fuel : Nat) {id : StepId} {s : Step}, t.build fuel id = some s →
    ∀ g ∈ s.settingsIn, P g
  | 0, _, _, hs => by cases hs
  | fuel + 1, id, s, hs => by
    obtain ⟨n, hn, rfl⟩ := Option.map_eq_some_iff.1 hs
    have own := h.get? hn
    have below : ∀ g ∈ Step.settingsOf (n.children.filterMap (t.build fuel)), P g := by
      intro g hg
      obtain ⟨s, hs, hg⟩ := Step.mem_settingsOf.1 hg
      obtain ⟨child, -, hb⟩ := List.mem_filterMap.1 hs
      exact h.build fuel hb g hg
    cases hg : n.step with
    | leaf name a =>
      rw [hg] at own
      exact fun g hg => (List.mem_singleton.1 hg) ▸ own
    | block name f children =>
      rw [hg] at own
      exact List.forall_mem_cons.2 ⟨own, below⟩

/-- The nested steps of a tree have its settings. -/
theorem Holds.toSteps (h : t.Holds P) : ∀ g ∈ Step.settingsOf t.toSteps, P g := by
  intro g hg
  obtain ⟨s, hs, hg⟩ := Step.mem_settingsOf.1 hg
  obtain ⟨root, -, hb⟩ := List.mem_filterMap.1 hs
  exact h.build _ hb g hg

/-! ## Edits -/

theorem Holds.detach (h : t.Holds P) (id : StepId) : (t.detach id).Holds P := h.modifySiblings _ _

theorem Holds.place (h : t.Holds P) (slot : Slot) (id : StepId) : (t.place slot id).Holds P := h.modifySiblings _ _

theorem Holds.insertAt (h : t.Holds P) (target : DropTarget) {s : Step} (hs : ∀ g ∈ s.settingsIn, P g) :
    (t.insertAt source target s).1.Holds P := by
  unfold StepTree.insertAt
  split
  · exact h
  · split
    · exact (holds_addSubtree source t _ h s hs).place _ _
    · exact h

theorem Holds.moveTo (h : t.Holds P) (id : StepId) (target : DropTarget) : (t.moveTo id target).Holds P := by
  unfold StepTree.moveTo
  split
  · exact h
  · dsimp only
    split
    · exact h
    · exact ((h.detach id).place _ id).modifyNode fun _ hn => hn

theorem Holds.duplicate (h : t.Holds P) (id : StepId) : (t.duplicate source id).1.Holds P := by
  unfold StepTree.duplicate
  split
  · exact h
  next found hf =>
    refine h.insertAt _ ?_
    rw [Step.settingsIn_withFreshIds]
    exact h.build _ hf

theorem Holds.replace (h : t.Holds P) (id : StepId) {s : Step} (hs : ∀ g ∈ s.settingsIn, P g) :
    (t.replace source id s).1.Holds P := by
  rw [Step.settingsIn_cons] at hs
  obtain ⟨own, children⟩ := List.forall_mem_cons.1 hs
  have swap {t : StepTree} (h : t.Holds P) :
      (t.modifyNode id fun n => { n with step := (s.withId id).bare }).Holds P :=
    h.modifyNode fun _ _ => by simpa using own
  unfold StepTree.replace
  split
  · exact h
  next n _ =>
    have cleared : ((n.children.foldl StepTree.removeSubtree t).modifyNode id fun n =>
        { n with children := [] }).Holds P :=
      (holds_foldl (fun _ id h => h.removeSubtree id) n.children t h).modifyNode fun _ hn => hn
    dsimp only
    split
    · exact swap h
    · split
      · exact swap (holds_addChildren source _ id cleared _ children)
      · exact h

/-- What holds of the settings of a tree and of those that an edit brings in holds after the edit. -/
theorem Holds.apply (h : t.Holds P) (e : Edit) (he : ∀ g ∈ e.brought, P g) : (e.apply source t).1.Holds P := by
  cases e with
  | delete id =>
    show (t.delete id).Holds P
    unfold StepTree.delete
    split
    · exact (h.detach id).removeSubtree id
    · exact h
  | insertAt target s => exact h.insertAt target he
  | moveTo id target => exact h.moveTo id target
  | duplicate id => exact h.duplicate id
  | replace id s => exact h.replace id he

end StepTree

end StepTimer
