/-
A move on the nested steps is cut and paste. The step is cut out with all steps below it and put at the target among
the steps that are left, where it bears the same nodes as before but for its own parent. A move is refused when the
step is missing, when the target lies in the step, and when the target has no place.
-/
import StepTimer.Proofs.Tree.Inverse

namespace StepTimer

/-- Whether a drop target names a step or one of the steps below it. -/
def DropTarget.IsIn (target : DropTarget) (s : Step) : Prop :=
  ∃ y position, target = .relative y position ∧ y ∈ s.ids

namespace StepTree

variable {t : StepTree} {id x y : StepId} {n : Node} {s sub : Step} {target : DropTarget} {slot : Slot}
  {source : IdSource} {l : List StepId}

/-! ## Steps and their descendants -/

theorem Bears.mem_ids_of_way (hw : t.WF) {parent : Option StepId} (h : t.Bears parent s) (w : t.Way y l)
    (hs : s.id ∈ l) : y ∈ s.ids := by
  induction w with
  | top hn hp => rw [List.mem_singleton] at hs; exact hs ▸ s.id_mem_ids
  | @up y p n l hn hp _ ih =>
    rcases List.mem_cons.1 hs with hs | hs
    · exact hs ▸ s.id_mem_ids
    · obtain ⟨m, hm, hc⟩ := (hw.child_iff y n p hn).1 hp
      exact h.mem_ids (ih hs) hm hc

/-- The names in a step of a well-formed tree are its own and those of its descendants. -/
theorem WF.mem_ids_iff (hw : t.WF) (hs : t.find? id = some sub) :
    y ∈ sub.ids ↔ y = id ∨ t.isDescendant id y = true := by
  obtain ⟨hid, bears⟩ := hw.bears_of_find? hs
  constructor
  · intro hy
    have hung : t.Hung [id] y := bears.hung (.top (by rw [hid]; exact List.mem_singleton_self id)) y hy
    have inTree := Step.subset_of_find? hw.nodup_toSteps (hw.find?_toSteps hs) hy
    exact hw.eq_or_isDescendant (hw.mem_idsOf_toSteps.1 inTree) hung
  · rintro (rfl | hd)
    · rw [← hid]; exact sub.id_mem_ids
    · by_cases known : y ∈ t.keys
      · obtain ⟨l, w⟩ := hw.way known
        have above := (w.isAbove_iff w.length_le).1 hd
        refine bears.mem_ids_of_way hw w ?_
        rw [hid]
        exact List.mem_of_mem_tail above
      · -- what is missing has no parent
        have climbs := hw.climbs id y
        have top : t.parentOf y = none := by
          unfold parentOf
          rw [get?_eq_none known]
          rfl
        rw [hd, top] at climbs
        cases climbs

theorem WF.targetsSelf_iff (hw : t.WF) (hs : t.find? id = some sub) :
    t.targetsSelf id target = true ↔ target.IsIn sub := by
  cases target with
  | rootStart =>
    constructor
    · intro h; cases h
    · rintro ⟨_, _, ⟨⟩, _⟩
  | rootEnd =>
    constructor
    · intro h; cases h
    · rintro ⟨_, _, ⟨⟩, _⟩
  | relative y position =>
    unfold targetsSelf
    rw [Bool.or_eq_true, decide_eq_true_iff, ← hw.mem_ids_iff hs]
    constructor
    · exact fun h => ⟨y, position, rfl, h⟩
    · rintro ⟨_, _, ⟨⟩, h⟩; exact h

/-! ## The move -/

theorem HasPlace.detach (hw : t.WF) (h : t.HasPlace target) (id : StepId) : (t.detach id).HasPlace target := by
  intro y position hy
  obtain ⟨n, hn, container⟩ := h y position hy
  refine ⟨n.without id, ?_, container⟩
  rw [hw.loose.get?_detach, hn]; rfl

/-- The tree when a step has left its list and stands in a slot. -/
def movedTo (t : StepTree) (id : StepId) (slot : Slot) : StepTree :=
  ((t.detach id).place slot id).modifyNode id fun n => { n with parent := slot.parent }

/-- The slot is looked up once the step has left its list. -/
theorem moveTo_of_place (hw : t.WF) (hs : t.find? id = some sub) (out : ¬ target.IsIn sub) (place : t.HasPlace target) :
    ∃ slot, (t.detach id).slotFor target = some slot ∧ slot.Stands (t.detach id) target ∧
      t.moveTo id target = t.movedTo id slot := by
  have known : id ∈ t.keys := mem_keys_of_build hs
  have other : t.targetsSelf id target ≠ true := fun h => out ((hw.targetsSelf_iff hs).1 h)
  obtain ⟨slot₀, hslot₀, -⟩ := hw.loose.slotFor_stands (fun _ _ _ => List.not_mem_nil) place
  have tied : ∀ y position, target = .relative y position → y ∉ [id] := by
    intro y position hy
    rw [List.mem_singleton]
    rintro rfl
    exact out ⟨y, position, hy, by rw [← (hw.bears_of_find? hs).1]; exact sub.id_mem_ids⟩
  obtain ⟨slot, hslot, stands⟩ :=
    (hw.loose.detach known List.not_mem_nil).slotFor_stands tied (place.detach hw id)
  refine ⟨slot, hslot, stands, ?_⟩
  unfold moveTo
  rw [if_neg (by simp [mem_keys.1 known, other, hslot₀])]
  simp only [hslot]
  rfl

/-- The list of the target is not in the step. -/
theorem slot_apart (hw : t.WF) (hs : t.find? id = some sub) (out : ¬ target.IsIn sub)
    (hslot : (t.detach id).slotFor target = some slot) : ∀ x ∈ sub.ids, slot.parent ≠ some x := by
  intro x hx hp
  have other : t.targetsSelf id target = false := by
    rw [Bool.eq_false_iff]
    exact fun h => out ((hw.targetsSelf_iff hs).1 h)
  obtain ⟨roots, all⟩ := hw.detached id
  have hung := hung_slot hw (mem_keys_of_build hs) other hslot hp
  rw [roots] at hung
  exact ((Step.mem_idsOf_cut hw.nodup_toSteps (hw.find?_toSteps hs)).1 (all.mem_idsOf_of_hung hung)).2 hx

/-- Where it is moved to the step bears the same nodes as before, but for its own parent. -/
theorem WF.bears_movedTo (hw : t.WF) (hs : t.find? id = some sub) (apart : ∀ x ∈ sub.ids, slot.parent ≠ some x) :
    (t.movedTo id slot).Bears slot.parent sub := by
  obtain ⟨rfl, bears⟩ := hw.bears_of_find? hs
  have distinct := Step.nodup_ids_of_find? hw.nodup_toSteps (hw.find?_toSteps hs)
  have detached : (t.detach sub.id).Bears (t.parentOf sub.id) sub := by
    have cut := bears.cutIn fun x _ => hw.loose.get?_detach sub.id x
    rwa [Step.cutIn_self distinct] at cut
  refine bears_iff.2 ⟨?_, detached.children.of_same fun x hx => ?_⟩
  · have own := detached.get?
    rw [← get?_place_ne (apart sub.id sub.id_mem_ids)] at own
    exact get?_modifyNode_self own
  · rw [Step.ids_eq_cons] at distinct apart
    have hne : x ≠ sub.id := by
      rintro rfl
      exact (List.nodup_cons.1 distinct).1 hx
    exact (get?_modifyNode_ne hne).trans (get?_place_ne (apart x (List.mem_cons_of_mem _ hx)))

/-- A move puts the step at the target among the steps that are left, and the other nodes keep their parents. -/
theorem WF.moved (hw : t.WF) (hs : t.find? id = some sub) (out : ¬ target.IsIn sub) (place : t.HasPlace target) :
    (t.moveTo id target).toSteps = Step.paste target sub (Step.cut id t.toSteps) ∧
      (∃ parent, (t.moveTo id target).Bears parent sub) ∧
        ∀ x, x ≠ id → (t.moveTo id target).parentOf x = t.parentOf x := by
  have wf := wf_moveTo hw id target
  obtain ⟨slot, hslot, stands, hmove⟩ := moveTo_of_place hw hs out place
  have moved := hw.bears_movedTo hs (slot_apart hw hs out hslot)
  rw [hmove] at wf ⊢
  obtain ⟨rfl, -⟩ := hw.bears_of_find? hs
  obtain ⟨roots, all⟩ := hw.detached sub.id
  have nodup := hw.nodup_toSteps
  have found := hw.find?_toSteps hs
  have fits := slotFor_fits (hw.onlyBlocks.detach sub.id) hslot
  obtain ⟨roots', nodes⟩ := stands.place sub.id
  have elsewhere : ∀ x, x ≠ sub.id →
      (t.movedTo sub.id slot).get? x = ((t.detach sub.id).get? x).map (Node.listing target x sub.id) :=
    fun x hx => (get?_modifyNode_ne hx).trans (nodes x)
  refine ⟨wf.toSteps_eq ?_ ?_, ⟨_, moved⟩, fun x hx => ?_⟩
  · rw [movedTo, roots_modifyNode, roots', roots, Step.map_id_paste]
  · refine all.paste (stands.hosts fits moved) (Step.nodup_idsOf_cut nodup found) (fun x hx => ?_) fun means => ?_
    · refine elsewhere x ?_
      rintro rfl
      exact ((Step.mem_idsOf_cut nodup found).1 hx).2 sub.id_mem_ids
    · rw [← roots] at means
      rw [stands.only none (t.detach sub.id).roots rfl means]
      exact moved
  · unfold parentOf
    rw [elsewhere x hx, hw.loose.get?_detach]
    cases t.get? x with
    | none => rfl
    | some n => rfl

theorem moveTo_refused (hw : t.WF) (h : t.find? id = none ∨ (∃ sub, t.find? id = some sub ∧ target.IsIn sub) ∨
    ¬ t.HasPlace target) : t.moveTo id target = t := by
  unfold moveTo
  refine if_pos ?_
  rcases h with h | ⟨sub, hs, inside⟩ | h
  · have unknown : ¬ t.contains id = true := fun hc => hw.find?_eq_none_iff.1 h (mem_keys.2 hc)
    simp [unknown]
  · simp [(hw.targetsSelf_iff hs).2 inside]
  · simp [slotFor_of_not_hasPlace h]

/-! ## On nested lists -/

/-- Whether a target has a place is seen on the nested steps. -/
theorem WF.hasPlace_iff (hw : t.WF) : t.HasPlace target ↔ ∀ y position, target = .relative y position →
    ∃ s, Step.find? y t.toSteps = some s ∧ (position = .inside → s.isContainer = true) := by
  constructor
  · intro h y position hy
    obtain ⟨n, hn, container⟩ := h y position hy
    obtain ⟨s, hs, hid, bears⟩ := hw.bears_find? (mem_keys_of_get? hn)
    have own := bears.get?
    rw [hid, hn] at own; cases own
    exact ⟨s, hw.find?_toSteps hs, by simpa using container⟩
  · intro h y position hy
    obtain ⟨s, hs, container⟩ := h y position hy
    rw [← hw.find?_eq] at hs
    obtain ⟨hid, bears⟩ := hw.bears_of_find? hs
    have own := bears.get?
    rw [hid] at own
    exact ⟨_, own, by simpa using container⟩

/-- A move on the nested steps does not depend on the table that they are kept in. -/
theorem toSteps_moveTo_congr {t' : StepTree} (hw : t.WF) (hw' : t'.WF) (same : t'.toSteps = t.toSteps) (id : StepId)
    (target : DropTarget) : (t'.moveTo id target).toSteps = (t.moveTo id target).toSteps := by
  have find : ∀ x, t'.find? x = t.find? x := fun x => by rw [hw'.find?_eq, hw.find?_eq, same]
  have place : t'.HasPlace target ↔ t.HasPlace target := by rw [hw'.hasPlace_iff, hw.hasPlace_iff, same]
  by_cases h : t.find? id = none ∨ (∃ sub, t.find? id = some sub ∧ target.IsIn sub) ∨ ¬ t.HasPlace target
  · rw [moveTo_refused hw h, moveTo_refused hw' (by rwa [find, place]), same]
  · push Not at h
    obtain ⟨known, out, has⟩ := h
    obtain ⟨sub, hs⟩ := Option.ne_none_iff_exists'.1 known
    rw [(hw.moved hs (out sub hs) has).1, (hw'.moved ((find id).trans hs) (out sub hs) (place.2 has)).1, same]

/-- A move is cut and paste. It leaves the tree as it was when the step is missing, when the target lies in the step and
when the target has no place. Otherwise the step is cut out with all that is below it and put at the target among the
steps that are left; it is the same step as before, and the others keep their parents and their order. The move of
nested steps with distinct names is the move of their tree. -/
theorem moveTo_cut_paste (hw : t.WF) (id : StepId) (target : DropTarget) :
    ((t.find? id = none ∨ (∃ sub, t.find? id = some sub ∧ target.IsIn sub) ∨ ¬ t.HasPlace target) →
      t.moveTo id target = t) ∧
    (∀ sub, t.find? id = some sub → ¬ target.IsIn sub → t.HasPlace target →
      (t.moveTo id target).toSteps = Step.paste target sub (Step.cut id t.toSteps) ∧
        (t.moveTo id target).find? id = some sub ∧
          (∀ x, x ≠ id → (t.moveTo id target).parentOf x = t.parentOf x) ∧
            (Step.idsOf (t.moveTo id target).toSteps).filter (fun x => x ∉ sub.ids) =
              (Step.idsOf t.toSteps).filter fun x => x ∉ sub.ids) ∧
    (t.moveTo id target).count = t.count ∧
    (∀ source, (Step.moveTo source t.toSteps id target).1 = (t.moveTo id target).toSteps) ∧
    ∀ source steps, (Step.idsOf steps).Nodup → ∃ made : StepTree, made.WF ∧ made.toSteps = steps ∧
      (Step.moveTo source steps id target).1 = (made.moveTo id target).toSteps := by
  refine ⟨moveTo_refused hw, fun sub hs out place => ?_, ?_, fun source => ?_, fun source steps nodup => ?_⟩
  · have nodup := hw.nodup_toSteps
    have found := hw.find?_toSteps hs
    obtain ⟨pasted, ⟨parent, bears⟩, parents⟩ := hw.moved hs out place
    refine ⟨pasted, ?_, parents, ?_⟩
    · have again := (wf_moveTo hw id target).find?_of_bears bears
      rwa [(hw.bears_of_find? hs).1] at again
    · rw [pasted, Step.filter_idsOf_paste (Step.nodup_idsOf_cut nodup found), Step.idsOf_cut_eq_filter nodup found,
        List.filter_filter]
      simp only [Bool.and_self]
  · rw [count_eq_length_keys, count_eq_length_keys, keys_moveTo]
  · obtain ⟨made, same, -⟩ := ofSteps_of_nodup hw.nodup_toSteps source
    exact toSteps_moveTo_congr hw made same id target
  · obtain ⟨made, same, -⟩ := ofSteps_of_nodup nodup source
    exact ⟨_, made, same, rfl⟩

/-- The first of two steps in a loop is moved behind the second one, and the loop is not moved into itself. -/
theorem moveTo_cut_paste_loop :
    let steps := [Step.block "a" (.loop .infinite) [.leaf "b" .unknown, .leaf "c" .unknown]]
    let t := (ofSteps (dollars 1) steps).1
    t.WF ∧ (t.moveTo "b" (.relative "c" .after)).toSteps =
        [.block "a" (.loop .infinite) [.leaf "c" .unknown, .leaf "b" .unknown]] ∧
      t.moveTo "a" (.relative "c" .after) = t := by
  intro steps t
  have hw : t.WF := (ofSteps_of_nodup (by decide) _).1
  obtain ⟨-, moved, -⟩ := moveTo_cut_paste hw "b" (.relative "c" .after)
  obtain ⟨refused, -⟩ := moveTo_cut_paste hw "a" (.relative "c" .after)
  have place : t.HasPlace (.relative "c" .after) := by
    rintro y position ⟨⟩
    exact ⟨⟨.leaf "c" .unknown, some "a", []⟩, by rfl, by rintro ⟨⟩⟩
  have out : ¬ (DropTarget.relative "c" .after).IsIn (.leaf "b" .unknown) := by
    rintro ⟨_, _, ⟨⟩, h⟩
    exact absurd h (by decide)
  refine ⟨hw, (moved _ (by rfl) out place).1.trans (by rfl), refused (.inr (.inl ⟨_, rfl, "c", .after, rfl, ?_⟩))⟩
  decide

end StepTree

end StepTimer
