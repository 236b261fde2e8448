/-
A duplicate is a copy under new names right after the original. The copy has the shape of the original at every depth,
no name in it was used before, and it stands in the list of the original at the next place. Nothing else moves: every
step keeps its parent, and the steps that were there stand in their old order.
-/
import StepTimer.Proofs.Tree.Seats

namespace StepTimer

namespace StepTree

variable {t : StepTree} {id : StepId} {sub : Step} {slot : Slot} {source : IdSource}

/-! ## The place of the copy -/

/-- The place right after a step is in the list of the step. -/
theorem slotFor_after (h : t.slotFor (.relative id .after) = some slot) : slot.parent = t.parentOf id := by
  obtain ⟨n, hn, ⟨⟨⟩, -⟩ | ⟨names, i, -, -, ⟨⟨⟩, -⟩ | ⟨-, rfl⟩⟩⟩ := slotFor_relative h
  exact (parentOf_of_get? hn).symm

theorem hasPlace_after (h : id ∈ t.keys) : t.HasPlace (.relative id .after) := by
  rintro y position ⟨⟩
  obtain ⟨n, hn⟩ := contains_iff.1 (mem_keys.1 h)
  exact ⟨n, hn, fun inside => by cases inside⟩

theorem idsAreFree_withFreshIds (hf : source.Fresh t.keys) (s : Step) :
    t.idsAreFree (s.withFreshIds source).1 = true :=
  idsAreFree_iff.2 ⟨Step.nodup_ids_withFreshIds hf s, Step.not_mem_of_mem_ids_withFreshIds hf s⟩

theorem duplicate_of_found (hs : t.find? id = some sub) : t.duplicate source id =
    t.insertAt (sub.withFreshIds source).2 (.relative id .after) (sub.withFreshIds source).1 := by
  unfold duplicate
  rw [hs]

/-- The copy is inserted in the list of the original. -/
theorem WF.duplicated (hw : t.WF) (hf : source.Fresh t.keys) (hs : t.find? id = some sub) :
    let copy := (sub.withFreshIds source).1
    let r := (t.duplicate source id).1
    r.WF ∧ r.toSteps = Step.paste (.relative id .after) copy t.toSteps ∧ r.keys = t.keys ++ copy.ids ∧
      r.Bears (t.parentOf id) copy ∧ ∀ x ∈ t.keys, r.parentOf x = t.parentOf x := by
  intro copy r
  have free : t.idsAreFree copy = true := idsAreFree_withFreshIds hf sub
  have place : t.HasPlace (.relative id .after) := hasPlace_after (mem_keys_of_build hs)
  obtain ⟨slot, hslot, -⟩ := hw.loose.slotFor_stands (fun _ _ _ => List.not_mem_nil) place
  obtain ⟨wf, pasted, keys⟩ := hw.inserted (sub.withFreshIds source).2 place free
  obtain ⟨bears, parents⟩ := hw.bears_inserted (sub.withFreshIds source).2 hslot free
  rw [slotFor_after hslot] at bears
  have made : r = (t.insertAt (sub.withFreshIds source).2 (.relative id .after) copy).1 :=
    congrArg Prod.fst (duplicate_of_found hs)
  rw [made]
  exact ⟨wf, pasted, keys, bears, parents⟩

/-- A step is duplicated right after itself, with all steps below it. The copy has the shape of the original and only
new names; the tree grows by the steps of the copy, and those that were there keep their names, their parents and their
order. Without the step nothing changes. -/
theorem duplicate_beside (hw : t.WF) (hf : source.Fresh t.keys) (id : StepId) :
    (∀ sub, t.find? id = some sub →
      let copy := (sub.withFreshIds source).1
      let r := (t.duplicate source id).1
      r.toSteps = Step.paste (.relative id .after) copy t.toSteps ∧
        (DropTarget.relative id .after).Seats copy.id r.toSteps ∧
        r.find? copy.id = some copy ∧ copy.unnamed = sub.unnamed ∧
        (∀ x ∈ copy.ids, t.contains x = false) ∧ (Step.idsOf r.toSteps).Nodup ∧ r.count = t.count + sub.size ∧
        (∀ x, t.contains x = true → r.contains x = true ∧ r.parentOf x = t.parentOf x) ∧
        r.parentOf copy.id = t.parentOf id ∧
        (Step.idsOf r.toSteps).filter (fun x => x ∉ copy.ids) = Step.idsOf t.toSteps) ∧
    (t.find? id = none → t.duplicate source id = (t, source)) := by
  constructor
  · intro sub hs copy r
    have free : t.idsAreFree copy = true := idsAreFree_withFreshIds hf sub
    have new : ∀ x ∈ copy.ids, x ∉ t.keys := (idsAreFree_iff.1 free).2
    have shape : copy.unnamed = sub.unnamed := Step.unnamed_withFreshIds source sub
    obtain ⟨wf, pasted, keys, bears, parents⟩ : r.WF ∧ _ := hw.duplicated hf hs
    refine ⟨pasted, ?_, wf.find?_of_bears bears, shape, fun x hx => contains_of_idsAreFree free hx, wf.nodup_toSteps, ?_,
      fun x hx => ?_, parentOf_of_get? bears.get?, ?_⟩
    · rw [pasted]
      exact hw.seats_insert (hasPlace_after (mem_keys_of_build hs)) free
    · -- equal shapes have equal sizes
      have size : copy.size = sub.size := by rw [← Step.size_unnamed, shape, Step.size_unnamed]
      rw [count_eq_length_keys, keys, List.length_append, ← count_eq_length_keys, Step.length_ids, size]
    · have old := mem_keys.2 hx
      refine ⟨mem_keys.1 ?_, parents x old⟩
      rw [keys]
      exact List.mem_append_left _ old
    · rw [pasted, Step.filter_idsOf_paste hw.nodup_toSteps]
      exact List.filter_eq_self.2 fun x hx => decide_eq_true fun hc => new x hc (hw.mem_idsOf_toSteps.1 hx)
  · intro missing
    unfold duplicate
    rw [missing]

/-- A loop is duplicated before the step that comes after it, and a step that is not there is not. -/
theorem duplicate_beside_loop :
    let loop := Step.block "a" (.loop .infinite) [.leaf "b" .unknown]
    let t := (ofSteps (dollars 1) [loop, .leaf "c" .unknown]).1
    let r := (t.duplicate (dollars 1) "a").1
    t.WF ∧ (dollars 1).Fresh t.keys ∧
      r.toSteps = [loop, .block "$$" (.loop .infinite) [.leaf "$$$" .unknown], .leaf "c" .unknown] ∧ r.count = 5 ∧
      r.parentOf "b" = some "a" ∧ t.duplicate (dollars 1) "z" = (t, dollars 1) := by
  intro loop t r
  have hw : t.WF := (ofSteps_of_nodup (by decide) _).1
  have fresh : (dollars 1).Fresh t.keys := dollars_fresh (by decide)
  obtain ⟨copied, -⟩ := duplicate_beside hw fresh "a"
  obtain ⟨pasted, -, -, -, -, -, count, kept, -, -⟩ := copied loop (by rfl)
  obtain ⟨-, missing⟩ := duplicate_beside hw fresh "z"
  exact ⟨hw, fresh, pasted.trans (by rfl), count.trans (by rfl), (kept "b" (by rfl)).2.trans (by rfl), missing (by rfl)⟩

end StepTree

end StepTimer
