/-
The names in a tree and in the nested steps that are built from it. The steps of a well-formed tree have
pairwise distinct names, however deep they stand; and after every edit the source of names is still fresh
for the tree and for all that it was fresh for before.
-/
import StepTimer.Proofs.Tree.History

namespace StepTimer

/-! ## The names of nested steps -/

namespace Step

variable {x : StepId} {s : Step} {steps : List Step}

theorem mem_idsOf : x ∈ idsOf steps ↔ ∃ s ∈ steps, x ∈ s.ids := by
  induction steps with
  | nil => simp [idsOf]
  | cons s rest ih => simp [idsOf, ih]

theorem mem_ids_withChildren (h : x ∈ (s.withChildren steps).ids) : x = s.id ∨ x ∈ idsOf steps := by
  cases s with
  | leaf id a => exact .inl (List.mem_singleton.1 h)
  | block id f _ => exact List.mem_cons.1 h

theorem nodup_ids_withChildren (s : Step) (own : s.id ∉ idsOf steps) (below : (idsOf steps).Nodup) :
    (s.withChildren steps).ids.Nodup := by
  cases s with
  | leaf id a => exact List.nodup_singleton id
  | block id f _ => exact List.nodup_cons.2 ⟨own, below⟩

/-- Steps that are built for distinct names have distinct names if no two of them share one. -/
theorem nodup_idsOf_filterMap {make : StepId → Option Step} : ∀ {names : List StepId}, names.Nodup →
    (∀ c ∈ names, ∀ s, make c = some s → s.ids.Nodup) →
    (∀ c ∈ names, ∀ d ∈ names, ∀ s r, make c = some s → make d = some r → ∀ x ∈ s.ids, x ∈ r.ids → c = d) →
    (idsOf (names.filterMap make)).Nodup
  | [], _, _, _ => List.nodup_nil
  | c :: rest, distinct, each, apart => by
    obtain ⟨notIn, distinct⟩ := List.nodup_cons.1 distinct
    have rest_nodup := nodup_idsOf_filterMap distinct (fun d hd => each d (List.mem_cons_of_mem _ hd))
      fun d hd e he => apart d (List.mem_cons_of_mem _ hd) e (List.mem_cons_of_mem _ he)
    rcases hc : make c with _ | s
    · rw [List.filterMap_cons_none hc]; exact rest_nodup
    · rw [List.filterMap_cons_some hc, idsOf]
      refine List.nodup_append.2 ⟨each c (List.mem_cons_self ..) s hc, rest_nodup, ?_⟩
      rintro x hx _ hr rfl
      obtain ⟨r, hr, hxr⟩ := mem_idsOf.1 hr
      obtain ⟨d, hd, hdr⟩ := List.mem_filterMap.1 hr
      have := apart c (List.mem_cons_self ..) d (List.mem_cons_of_mem _ hd) s r hc hdr x hx hxr
      exact notIn (this ▸ hd)

end Step

namespace StepTree

variable {t : StepTree} {c d id p x y : StepId} {n : Node} {s : Step} {l l' : List StepId} {ls used : List StepId}
  {source : IdSource}

theorem Loose.mem_keys_of_hung (hl : Loose t ls) (hx : x ∈ t.keys) (h : t.Hung [x] y) : y ∈ t.keys := by
  cases h with
  | top h => rw [List.mem_singleton.1 h]; exact hx
  | under h hm _ => exact hl.mem_keys_of_child h hm

/-- All names in a built step hang from the name that it is built for. -/
theorem Loose.hung_build (hl : Loose t ls) : ∀ (fuel : Nat) {x : StepId} {s : Step}, t.build fuel x = some s →
    ∀ y ∈ s.ids, t.Hung [x] y
  | 0, _, _, hs => by cases hs
  | fuel + 1, x, s, hs => by
    obtain ⟨n, hn, rfl⟩ := Option.map_eq_some_iff.1 hs
    intro y hy
    rcases Step.mem_ids_withChildren hy with rfl | hy
    · exact .top (List.mem_singleton.2 (hl.payload x n hn).1)
    · obtain ⟨r, hr, hy⟩ := Step.mem_idsOf.1 hy
      obtain ⟨c, hc, hb⟩ := List.mem_filterMap.1 hr
      refine (hl.hung_build fuel hb y hy).mono (fun q k hq => ⟨k, hq, fun _ h => h⟩) fun z hz => ?_
      rw [List.mem_singleton.1 hz]
      exact .under hn hc (.top (List.mem_singleton_self _))

theorem mem_keys_of_build {fuel : Nat} (h : t.build fuel x = some s) : x ∈ t.keys := by
  cases fuel with
  | zero => cases h
  | succ fuel =>
    obtain ⟨n, hn, -⟩ := Option.map_eq_some_iff.1 h
    exact mem_keys_of_get? hn

/-- The ways of two steps with the same parent differ in their first name only. -/
theorem Way.tail_eq (w : t.Way c l) (w' : t.Way d l') (same : t.parentOf c = t.parentOf d) : l.tail = l'.tail := by
  cases w with
  | top h hp =>
    cases w' with
    | top => rfl
    | up h' hp' => rw [parentOf_of_get? h, parentOf_of_get? h', hp, hp'] at same; cases same
  | up h hp up =>
    cases w' with
    | top h' hp' => rw [parentOf_of_get? h, parentOf_of_get? h', hp, hp'] at same; cases same
    | up h' hp' up' =>
      rw [parentOf_of_get? h, parentOf_of_get? h', hp, hp'] at same
      cases same
      exact up.unique up'

/-- Nothing hangs from two steps with the same parent. -/
theorem Loose.eq_of_hung (hl : Loose t ls) (w : t.Way y l) (hc : t.Hung [c] y) (hd : t.Hung [d] y)
    (same : t.parentOf c = t.parentOf d) : c = d := by
  obtain ⟨l₁, l₂, hl₂, wc⟩ := w.suffix (hl.mem_way w hc)
  obtain ⟨l₃, l₄, hl₄, wd⟩ := w.suffix (hl.mem_way w hd)
  have tails := wc.tail_eq wd same
  obtain ⟨up, rfl⟩ := wc.head
  obtain ⟨up', rfl⟩ := wd.head
  rw [List.tail_cons, List.tail_cons] at tails
  subst tails
  have lists : l₁ ++ c :: up = l₃ ++ d :: up := hl₂.symm.trans hl₄
  exact (List.cons.inj (List.append_inj' lists rfl).2).1

theorem WF.nodup_ids_build (hw : t.WF) : ∀ (fuel : Nat) {x : StepId} {s : Step}, t.build fuel x = some s →
    s.ids.Nodup
  | 0, _, _, hs => by cases hs
  | fuel + 1, x, s, hs => by
    obtain ⟨n, hn, rfl⟩ := Option.map_eq_some_iff.1 hs
    have hl := hw.loose
    obtain ⟨name, -⟩ := hl.payload x n hn
    refine Step.nodup_ids_withChildren n.step (fun hx => ?_) ?_
    · -- a step below itself would be met again on the way of its child
      rw [name] at hx
      obtain ⟨r, hr, hx⟩ := Step.mem_idsOf.1 hx
      obtain ⟨c, hc, hb⟩ := List.mem_filterMap.1 hr
      obtain ⟨k, hk⟩ := contains_iff.1 (mem_keys.1 (hl.mem_keys_of_child hn hc))
      have up : k.parent = some x := by rw [← parentOf_of_get? hk]; exact hl.child x n hn c hc
      obtain ⟨l, w⟩ := hw.way (mem_keys_of_get? hn)
      have own := hl.mem_way w (hl.hung_build fuel hb x hx)
      exact (List.nodup_cons.1 (Way.up hk up w).nodup).1 own
    · refine Step.nodup_idsOf_filterMap (hl.nodup_children hn) (fun c _ r hr => hw.nodup_ids_build fuel hr) ?_
      intro c hc d hd r r' hr hr' y hy hy'
      have hung := hl.hung_build fuel hr y hy
      obtain ⟨l, w⟩ := hw.way (hl.mem_keys_of_hung (hl.mem_keys_of_child hn hc) hung)
      refine hl.eq_of_hung w hung (hl.hung_build fuel hr' y hy') ?_
      rw [hl.child x n hn c hc, hl.child x n hn d hd]

/-- The nested steps of a well-formed tree have pairwise distinct names. -/
theorem WF.nodup_toSteps (hw : t.WF) : (Step.idsOf t.toSteps).Nodup := by
  have hl := hw.loose
  refine Step.nodup_idsOf_filterMap hl.nodup_roots (fun c _ s hs => hw.nodup_ids_build _ hs) ?_
  intro c hc d hd s r hs hr y hy hy'
  have hung := hl.hung_build _ hs y hy
  obtain ⟨l, w⟩ := hw.way (hl.mem_keys_of_hung (mem_keys_of_build hs) hung)
  refine hl.eq_of_hung w hung (hl.hung_build _ hr y hy') ?_
  rw [hl.root c hc, hl.root d hd]

/-- The nested steps of a tree have no names but its keys. -/
theorem WF.idsOf_toSteps_subset (hw : t.WF) : Step.idsOf t.toSteps ⊆ t.keys := by
  intro y hy
  obtain ⟨s, hs, hy⟩ := Step.mem_idsOf.1 hy
  obtain ⟨c, -, hb⟩ := List.mem_filterMap.1 hs
  exact hw.loose.mem_keys_of_hung (mem_keys_of_build hb) (hw.loose.hung_build _ hb y hy)

/-! ## Names left after an edit -/

@[simp] theorem keys_modifySiblings (t : StepTree) (parent : Option StepId) (f : List StepId → List StepId) :
    (t.modifySiblings parent f).keys = t.keys := by
  unfold modifySiblings
  split
  · rfl
  · split
    · rw [keys_modifyNode]
    · rfl

@[simp] theorem keys_detach (t : StepTree) (id : StepId) : (t.detach id).keys = t.keys := keys_modifySiblings ..

@[simp] theorem keys_place (t : StepTree) (slot : Slot) (id : StepId) : (t.place slot id).keys = t.keys :=
  keys_modifySiblings ..

theorem keys_delete_subset (t : StepTree) (id : StepId) : ∀ x ∈ (t.delete id).keys, x ∈ t.keys := by
  intro x hx
  unfold delete at hx
  split at hx
  · rw [← keys_detach t id]; exact keys_removeSubtree_subset _ id x hx
  · exact hx

theorem keys_moveTo (t : StepTree) (id : StepId) (target : DropTarget) : (t.moveTo id target).keys = t.keys := by
  unfold moveTo
  split
  · rfl
  · dsimp only
    split
    · rfl
    · rw [keys_modifyNode, keys_place, keys_detach]

theorem fresh_insertAt (hw : t.WF) (target : DropTarget) (s : Step) (hf : source.Fresh (t.keys ++ (s.ids ++ used))) :
    (t.insertAt source target s).2.Fresh ((t.insertAt source target s).1.keys ++ used) := by
  have refused : source.Fresh (t.keys ++ used) := hf.mono fun x hx => by
    simp only [List.mem_append] at hx ⊢; tauto
  unfold insertAt
  split
  · exact refused
  next slot _ =>
    split
    · have add := added used source t [] slot.parent hw.loose s hf
      simp only [keys_place]; exact add.fresh
    · exact refused

theorem fresh_duplicate (hw : t.WF) (id : StepId) (hf : source.Fresh (t.keys ++ used)) :
    (t.duplicate source id).2.Fresh ((t.duplicate source id).1.keys ++ used) := by
  unfold duplicate
  split
  · exact hf
  next found _ =>
    refine fresh_insertAt hw _ _ ((Step.fresh_withFreshIds source hf found).mono fun x hx => ?_)
    simp only [List.mem_append] at hx ⊢; tauto

theorem fresh_replace (hw : t.WF) (id : StepId) (s : Step)
    (hf : source.Fresh (t.keys ++ (Step.idsOf s.children ++ used))) :
    (t.replace source id s).2.Fresh ((t.replace source id s).1.keys ++ used) := by
  have refused : source.Fresh (t.keys ++ used) := hf.mono fun x hx => by
    simp only [List.mem_append] at hx ⊢; tauto
  unfold replace
  split
  · exact refused
  next n hn =>
    dsimp only
    split
    · rw [keys_modifyNode]; exact refused
    · split
      · obtain ⟨hl, -, hg, sub⟩ := cleared hw hn
        have ext := extended used source _ id _ hl hg s.children (hf.mono fun x hx => by
          have := sub x
          simp only [List.mem_append] at hx ⊢; tauto)
        rw [keys_modifyNode]; exact ext.fresh
      · exact refused

/-- The names of the steps that an edit brings into a tree. -/
def Edit.newNames : Edit → List StepId
  | insertAt _ s => s.ids
  | replace _ s => Step.idsOf s.children
  | _ => []

/-- After an edit the tree is well-formed again, and the source is fresh for the tree and for all that it was
fresh for beside the tree. -/
theorem kept_apply (hw : t.WF) (e : Edit) (hf : source.Fresh (t.keys ++ (e.newNames ++ used))) :
    (e.apply source t).1.WF ∧ (e.apply source t).2.Fresh ((e.apply source t).1.keys ++ used) := by
  have rest : source.Fresh (t.keys ++ e.newNames) := hf.mono fun x hx => by
    simp only [List.mem_append] at hx ⊢; tauto
  cases e with
  | delete id =>
    refine ⟨wf_delete hw id, hf.mono fun x hx => ?_⟩
    exact List.mem_append.2 ((List.mem_append.1 hx).imp_left (keys_delete_subset t id x))
  | insertAt target s => exact ⟨wf_insertAt hw target s rest, fresh_insertAt hw target s hf⟩
  | moveTo id target => exact ⟨wf_moveTo hw id target, by rw [Edit.apply, keys_moveTo]; exact hf⟩
  | duplicate id =>
    exact ⟨wf_duplicate hw id (hf.mono fun x hx => List.mem_append_left _ hx), fresh_duplicate hw id hf⟩
  | replace id s => exact ⟨wf_replace hw id s rest, fresh_replace hw id s hf⟩

end StepTree

end StepTimer
