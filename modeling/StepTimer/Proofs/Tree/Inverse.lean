/-
Insertion and deletion on the nested steps. A deletion cuts the step out, with all steps below it, and leaves every
other node as it was but for the name in the list of its parent. An insertion that is not refused puts the step at the
target, under the names that it came with; deleting it again gives the steps as they were.
-/
import StepTimer.Proofs.Tree.Renamed

namespace StepTimer

namespace StepTree

variable {t t' : StepTree} {id x y : StepId} {n : Node} {s sub : Step} {target : DropTarget} {slot : Slot}
  {source : IdSource}

/-! ## Deletion -/

/-- A step that is taken out of its list is cut out of what hangs from the top. -/
theorem WF.detached (hw : t.WF) (id : StepId) : (t.detach id).roots = (Step.cut id t.toSteps).map Step.id ∧
    (t.detach id).BearsAll none (Step.cut id t.toSteps) := by
  obtain ⟨roots, all⟩ := hw.bears_toSteps
  constructor
  · rw [hw.loose.roots_detach, Step.map_id_cut, roots]
  · exact all.cut fun x _ => hw.loose.get?_detach id x

/-- Deleting cuts the step out of the nested steps, and the nodes that are left only miss the name. -/
theorem WF.deleted (hw : t.WF) (id : StepId) : (t.delete id).toSteps = Step.cut id t.toSteps ∧
    ∀ x ∈ Step.idsOf (Step.cut id t.toSteps), (t.delete id).get? x = (t.get? x).map (Node.without id) := by
  have wf := wf_delete hw id
  unfold delete at wf ⊢
  by_cases hc : t.contains id = true
  · rw [if_pos hc] at wf ⊢
    obtain ⟨roots, all⟩ := hw.detached id
    have drop := removed (hw.loose.detach (mem_keys.2 hc) List.not_mem_nil)
    -- what hangs from the top is not dropped
    have kept : ∀ x ∈ Step.idsOf (Step.cut id t.toSteps),
        ((t.detach id).removeSubtree id).get? x = (t.detach id).get? x := fun x hx =>
      (drop.kept (t.detach id).roots (fun y hy => hy) x (all.hung (fun c hc => .top (by rwa [roots])) x hx)).1
    constructor
    · exact wf.toSteps_eq (drop.roots.trans roots) (all.of_same kept)
    · intro x hx
      rw [kept x hx, hw.loose.get?_detach id x]
  · rw [if_neg hc]
    have unknown : id ∉ t.keys := fun h => hc (mem_keys.1 h)
    constructor
    · rw [Step.cut_of_not_mem _ fun h => unknown (hw.mem_idsOf_toSteps.1 h)]
    · intro x _
      rcases hx : t.get? x with _ | n
      · rfl
      · rw [Option.map_some, without_of_not_mem fun h => unknown (hw.loose.mem_keys_of_child hx h)]

/-! ## Insertion -/

theorem idsAreFree_iff : t.idsAreFree s = true ↔ s.ids.Nodup ∧ ∀ x ∈ s.ids, x ∉ t.keys := by
  unfold idsAreFree
  simp only [Bool.and_eq_true, decide_eq_true_eq, List.all_eq_true, Bool.not_eq_true', mem_keys, Bool.not_eq_true]

theorem contains_of_idsAreFree (free : t.idsAreFree s = true) (hx : x ∈ s.ids) : t.contains x = false := by
  rw [Bool.eq_false_iff, ne_eq, ← mem_keys]
  exact (idsAreFree_iff.1 free).2 x hx

/-- A table with more nodes has the slots that it had. -/
theorem slotFor_of_kept (h : t.slotFor target = some slot) (kept : ∀ x ∈ t.keys, t'.get? x = t.get? x)
    (roots : t'.roots = t.roots) : t'.slotFor target = some slot := by
  have siblings : ∀ parent names, t.siblings parent = some names → t'.siblings parent = some names := by
    intro parent names hnames
    cases parent with
    | none => cases hnames; exact congrArg some roots
    | some p =>
      obtain ⟨m, hm, rfl⟩ := siblings_some hnames
      exact siblings_of_get? ((kept p (mem_keys_of_get? hm)).trans hm)
  cases target with
  | rootStart => exact h
  | rootEnd => rw [← h, slotFor, slotFor, roots]
  | relative y position =>
    obtain ⟨n, hn, ⟨rfl, container, rfl⟩ | ⟨names, i, hnames, hi, hslot⟩⟩ := slotFor_relative h
    · have hn' := (kept y (mem_keys_of_get? hn)).trans hn
      simp [slotFor, hn', container]
    · have hn' := (kept y (mem_keys_of_get? hn)).trans hn
      have hnames' := siblings _ _ hnames
      rcases hslot with ⟨rfl, rfl⟩ | ⟨rfl, rfl⟩
      · simp [slotFor, hn', hnames', hi]
      · simp [slotFor, hn', hnames', hi]

theorem get?_place_ne (h : slot.parent ≠ some x) : (t.place slot id).get? x = t.get? x := by
  unfold place modifySiblings
  split
  · rfl
  next p hp =>
    split
    · exact get?_modifyNode_ne fun hx => h (by rw [hp, hx])
    · rfl

/-- Whichever list a name is put into, the steps keep their parents. -/
theorem parentOf_place (t : StepTree) (slot : Slot) (id x : StepId) : (t.place slot id).parentOf x = t.parentOf x := by
  unfold place modifySiblings
  split
  · rfl
  next p _ =>
    split
    · unfold parentOf
      rw [get?_modifyNode]
      rcases t.get? x with _ | n
      · rfl
      · by_cases hx : x = p
        · rw [Option.map_some, if_pos hx]; rfl
        · rw [Option.map_some, if_neg hx]
    · rfl

theorem nodup_of_idsAreFree (hw : t.WF) (free : t.idsAreFree s = true) : (t.keys ++ s.ids).Nodup := by
  obtain ⟨distinct, unused⟩ := idsAreFree_iff.1 free
  exact List.nodup_append.2 ⟨hw.nodupKeys, distinct, fun x hx y hy he => unused y hy (he ▸ hx)⟩

theorem insertAt_of_free (hw : t.WF) (hslot : t.slotFor target = some slot) (free : t.idsAreFree s = true) :
    t.insertAt source target s = ((t.addSubtree source slot.parent s).2.1.place slot s.id, source) := by
  obtain ⟨name, -, src⟩ := names_addSubtree s source t slot.parent
  rw [Step.renamedIn_of_nodup (nodup_of_idsAreFree hw free)] at name src
  unfold insertAt
  simp only [hslot, if_pos free]
  rw [name, src]

/-- No name is taken from the source, so a fresh one does the same. -/
theorem exists_fresh_insertAt (hw : t.WF) (source : IdSource) (target : DropTarget) (free : t.idsAreFree s = true) :
    ∃ fresh : IdSource, fresh.Fresh (t.keys ++ s.ids) ∧
      (t.insertAt source target s).1 = (t.insertAt fresh target s).1 := by
  obtain ⟨fresh, hf⟩ := exists_fresh (t.keys ++ s.ids)
  refine ⟨fresh, hf, ?_⟩
  cases hslot : t.slotFor target with
  | none =>
    unfold insertAt
    rw [hslot]
  | some slot =>
    rw [insertAt_of_free hw hslot free, insertAt_of_free hw hslot free,
      addSubtree_of_nodup s source fresh t slot.parent (nodup_of_idsAreFree hw free)]

/-- A step whose names are free is added as it is. -/
theorem WF.bearing_of_free (hw : t.WF) (source : IdSource) (free : t.idsAreFree s = true) (parent : Option StepId) :
    Bearing t (t.addSubtree source parent s).2.1 parent s := by
  have own := nodup_of_idsAreFree hw free
  have first := bearing_addSubtree s source t parent
  rw [Step.renamedIn_of_nodup own] at first
  exact first own

/-- A step whose names are free is the one loose step after it has been added. -/
theorem WF.loose_of_free (hw : t.WF) (free : t.idsAreFree s = true) (hf : source.Fresh (t.keys ++ s.ids))
    (parent : Option StepId) :
    let t' := (t.addSubtree source parent s).2.1
    Loose t' [s.id] ∧ t'.keys = t.keys ++ s.ids := by
  obtain ⟨name, keys, -⟩ := names_addSubtree s source t parent
  have loose := (added [] source t [] parent hw.loose s (by rwa [List.append_nil])).loose
  rw [Step.renamedIn_of_nodup (nodup_of_idsAreFree hw free)] at name keys
  rw [name] at loose
  exact ⟨loose, keys⟩

/-- A step that is inserted is borne below the list of its slot, and the other steps keep their parents. -/
theorem WF.bears_inserted (hw : t.WF) (source : IdSource) (hslot : t.slotFor target = some slot)
    (free : t.idsAreFree s = true) :
    (t.insertAt source target s).1.Bears slot.parent s ∧
      ∀ x ∈ t.keys, (t.insertAt source target s).1.parentOf x = t.parentOf x := by
  have added := hw.bearing_of_free source free slot.parent
  rw [insertAt_of_free hw hslot free]
  constructor
  · -- the list is not one of the new step
    refine added.bears.of_same fun x hx => get?_place_ne fun hp => ?_
    obtain ⟨m, hm, -⟩ := (slotFor_fits hw.leafless hslot).block x hp
    exact (idsAreFree_iff.1 free).2 x hx (mem_keys_of_get? hm)
  · intro x hx
    rw [parentOf_place, parentOf, parentOf, added.kept x hx]

/-- A step whose names are free stands at the target after the insertion. -/
theorem WF.inserted (hw : t.WF) (source : IdSource) (place : t.HasPlace target) (free : t.idsAreFree s = true) :
    (t.insertAt source target s).1.WF ∧ (t.insertAt source target s).1.toSteps = Step.paste target s t.toSteps ∧
      (t.insertAt source target s).1.keys = t.keys ++ s.ids := by
  obtain ⟨slot, hslot, stands⟩ := hw.loose.slotFor_stands (fun _ _ _ => List.not_mem_nil) place
  obtain ⟨-, unused⟩ := idsAreFree_iff.1 free
  have fits := slotFor_fits hw.leafless hslot
  obtain ⟨fresh, hf, same⟩ := exists_fresh_insertAt hw source target free
  have wf := wf_insertAt hw target s hf
  have first := hw.bearing_of_free fresh free slot.parent
  obtain ⟨loose, keys⟩ := hw.loose_of_free free hf slot.parent
  obtain ⟨bears, -⟩ := hw.bears_inserted fresh hslot free
  rw [same]
  rw [insertAt_of_free hw hslot free] at wf bears ⊢
  generalize (t.addSubtree fresh slot.parent s).2.1 = t₁ at *
  obtain ⟨roots, all⟩ := hw.bears_toSteps
  -- the target means in the new table what it meant in the old one
  have stands₁ : slot.Stands t₁ target := by
    refine loose.stands_of_slotFor (fun y position hy => ?_) (slotFor_of_kept hslot first.kept first.roots)
    obtain ⟨n, hn, -⟩ := place y position hy
    rw [List.mem_singleton]
    rintro rfl
    exact unused _ s.id_mem_ids (mem_keys_of_get? hn)
  obtain ⟨roots', nodes⟩ := stands₁.place s.id
  refine ⟨wf, wf.toSteps_eq ?_ ?_, by rw [keys_place, keys]⟩
  · rw [roots', first.roots, Step.map_id_paste, roots]
  · refine all.paste (stands.hosts fits bears) hw.nodup_toSteps (fun x hx => ?_) fun means => ?_
    · rw [nodes x, first.kept x (hw.mem_idsOf_toSteps.1 hx)]
    · rw [roots] at means
      rw [stands.only none t.roots rfl means]
      exact bears

/-- An insertion is refused when the target has no place or a name of the step is not free. -/
theorem insertAt_refused (h : ¬ (t.HasPlace target ∧ t.idsAreFree s = true)) :
    t.insertAt source target s = (t, source) := by
  unfold insertAt
  by_cases place : t.HasPlace target
  · have taken : ¬ t.idsAreFree s = true := fun free => h ⟨place, free⟩
    split
    · rfl
    · rw [if_neg taken]
  · rw [slotFor_of_not_hasPlace place]

/-! ## Exactness -/

theorem insertAt_eq_self_iff (hw : t.WF) : (t.insertAt source target s).1 = t ↔
    ¬ t.HasPlace target ∨ ¬ s.ids.Nodup ∨ ∃ x ∈ s.ids, t.contains x = true := by
  constructor
  · intro same
    by_contra hno
    push Not at hno
    obtain ⟨place, distinct, unused⟩ := hno
    have free : t.idsAreFree s = true := idsAreFree_iff.2 ⟨distinct, fun x hx hk => unused x hx (mem_keys.1 hk)⟩
    -- the names of the step are new
    have keys := (hw.inserted source place free).2.2
    rw [same] at keys
    have known : s.id ∈ t.keys := by
      rw [keys]
      exact List.mem_append_right _ s.id_mem_ids
    exact unused _ s.id_mem_ids (mem_keys.1 known)
  · intro h
    rw [insertAt_refused]
    rintro ⟨place, free⟩
    obtain ⟨distinct, unused⟩ := idsAreFree_iff.1 free
    rcases h with h | h | ⟨x, hx, hk⟩
    · exact h place
    · exact h distinct
    · exact unused x hx (mem_keys.2 hk)

/-- What is inserted can be deleted again. -/
theorem delete_insertAt (hw : t.WF) (place : t.HasPlace target) (free : t.idsAreFree s = true) :
    ((t.insertAt source target s).1.delete s.id).toSteps = t.toSteps := by
  obtain ⟨wf, pasted, -⟩ := hw.inserted source place free
  rw [(wf.deleted s.id).1, pasted]
  refine Step.cut_paste hw.nodup_toSteps fun h => ?_
  exact (idsAreFree_iff.1 free).2 _ s.id_mem_ids (hw.mem_idsOf_toSteps.1 h)

/-- The steps of a deleted step are gone, and the others stay in their order. -/
theorem delete_of_found (hw : t.WF) (hs : t.find? id = some sub) :
    Step.idsOf (t.delete id).toSteps = (Step.idsOf t.toSteps).filter (fun x => x ∉ sub.ids) ∧
      (∀ x ∈ sub.ids, (t.delete id).find? x = none) ∧
        ∀ x n, x ∉ sub.ids → t.get? x = some n → (t.delete id).get? x = some (n.without id) := by
  have nodup := hw.nodup_toSteps
  have found := hw.find?_toSteps hs
  obtain ⟨cut, nodes⟩ := hw.deleted id
  refine ⟨?_, fun x hx => ?_, fun x n hx hn => ?_⟩
  · rw [cut, Step.idsOf_cut_eq_filter nodup found]
  · rw [(wf_delete hw id).find?_eq, cut, Step.find?_eq_none_iff, Step.mem_idsOf_cut nodup found]
    exact fun h => h.2 hx
  · have left : x ∈ Step.idsOf (Step.cut id t.toSteps) :=
      (Step.mem_idsOf_cut nodup found).2 ⟨hw.mem_idsOf_toSteps.2 (mem_keys_of_get? hn), hx⟩
    rw [nodes x left, hn, Option.map_some]

theorem delete_of_missing (hw : t.WF) (h : t.find? id = none) : t.delete id = t :=
  if_neg fun hc => hw.find?_eq_none_iff.1 h (mem_keys.2 hc)

/-- Insertion and deletion are exact and inverse. An insertion leaves the tree as it was exactly when the target has no
place or a name of the step repeats or is used; otherwise the step stands at the target as it came, and deleting it
gives the steps as they were. A deletion cuts the step out with all steps below it, of which none is found any more, and
the nodes that are left only miss its name; a name that is not there changes nothing. -/
theorem insertAt_delete_exact (hw : t.WF) (source : IdSource) (target : DropTarget) (s : Step) (id : StepId) :
    ((t.insertAt source target s).1 = t ↔
      ¬ t.HasPlace target ∨ ¬ s.ids.Nodup ∨ ∃ x ∈ s.ids, t.contains x = true) ∧
    (t.HasPlace target → s.ids.Nodup → (∀ x ∈ s.ids, t.contains x = false) →
      (t.insertAt source target s).1.toSteps = Step.paste target s t.toSteps ∧
        ((t.insertAt source target s).1.delete s.id).toSteps = t.toSteps) ∧
    (t.delete id).toSteps = Step.cut id t.toSteps ∧
    (∀ sub, t.find? id = some sub →
      Step.idsOf (t.delete id).toSteps = (Step.idsOf t.toSteps).filter (fun x => x ∉ sub.ids) ∧
        (∀ x ∈ sub.ids, (t.delete id).find? x = none) ∧
          ∀ x n, x ∉ sub.ids → t.get? x = some n → (t.delete id).get? x = some (n.without id)) ∧
    (t.find? id = none → t.delete id = t) := by
  refine ⟨insertAt_eq_self_iff hw, fun place distinct unused => ?_, (hw.deleted id).1,
    fun sub hs => delete_of_found hw hs, delete_of_missing hw⟩
  have free : t.idsAreFree s = true := by
    refine idsAreFree_iff.2 ⟨distinct, fun x hx hk => ?_⟩
    have known := mem_keys.1 hk
    rw [unused x hx] at known
    cases known
  exact ⟨(hw.inserted source place free).2.1, delete_insertAt hw place free⟩

/-- A step is inserted into a loop before the step in it, and deleted again; then the loop is deleted. -/
theorem insertAt_delete_loop :
    let steps := [Step.block "a" (.loop .infinite) [.leaf "b" .unknown], .leaf "c" .unknown]
    let t := (ofSteps (dollars 1) steps).1
    let inserted := (t.insertAt (dollars 1) (.relative "b" .before) (.leaf "d" .unknown)).1
    t.WF ∧ inserted.toSteps = Step.paste (.relative "b" .before) (.leaf "d" .unknown) t.toSteps ∧
      (inserted.delete "d").toSteps = t.toSteps ∧ (t.delete "a").find? "b" = none := by
  intro steps t inserted
  have hw : t.WF := (ofSteps_of_nodup (by decide) _).1
  obtain ⟨-, accepted, -, gone, -⟩ := insertAt_delete_exact hw (dollars 1) (.relative "b" .before)
    (.leaf "d" .unknown) "a"
  have place : t.HasPlace (.relative "b" .before) := by
    rintro y position ⟨⟩
    exact ⟨⟨.leaf "b" .unknown, some "a", []⟩, by rfl, by rintro ⟨⟩⟩
  obtain ⟨pasted, back⟩ := accepted place (by decide) (by decide)
  have found : t.find? "a" = some (.block "a" (.loop .infinite) [.leaf "b" .unknown]) := by rfl
  exact ⟨hw, pasted, back, (gone _ found).2.1 "b" (by decide)⟩

end StepTree

end StepTimer
