/-
Ways up a tree. In a well-formed tree the way from a step over its parents ends at the top, is the
only one, and meets no step twice; so it is no longer than the table. Therefore the climb that looks
for an ancestor and the recursion that builds a nested step come to their end: `Climbs` and `Builds`
are the two without any bound on their steps, and the bounded functions agree with them.
-/
import StepTimer.Proofs.Tree.Loose

namespace StepTimer

namespace StepTree

variable {t : StepTree} {id x p a : StepId} {n m : Node} {l l' : List StepId}

/-! ## Well-formed trees -/

theorem WF.loose (hw : t.WF) : Loose t [] := by
  constructor
  case nodupKeys => exact hw.nodupKeys
  case mentioned => exact hw.mentioned
  case root =>
    intro id hid
    rcases hg : t.get? id with _ | n
    · unfold parentOf; rw [hg]; rfl
    · rw [parentOf_of_get? hg]; exact (hw.root_iff id n hg).2 hid
  case child =>
    intro p m hm id hid
    have hk : id ∈ t.keys := hw.mentioned.subset (List.mem_append_right _
      ((mem_childNames hw.nodupKeys).2 ⟨p, m, hm, hid⟩))
    obtain ⟨n, hn⟩ := contains_iff.1 (mem_keys.1 hk)
    rw [parentOf_of_get? hn]; exact (hw.child_iff id n p hn).2 ⟨m, hm, hid⟩
  case hung =>
    intro id hid
    have hr := hw.rooted id (mem_keys.1 hid)
    induction hr with
    | root h top => exact .top ((hw.root_iff _ _ h).1 top)
    | child h up above ih =>
      obtain ⟨m, hm, hc⟩ := (hw.child_iff _ _ _ h).1 up
      exact .under hm hc (ih (mem_keys_of_get? hm))
  case payload => exact hw.payload

theorem Loose.wf (hl : Loose t []) (leafless : t.Leafless) : t.WF := by
  constructor
  case nodupKeys => exact hl.nodupKeys
  case mentioned => exact hl.mentioned
  case root_iff =>
    intro id n hn
    rw [← parentOf_of_get? hn]
    constructor
    · intro hp
      rcases hl.place_cases (mem_keys_of_get? hn) with h | ⟨h, -⟩ | ⟨p, m, -, -, h⟩
      · cases h
      · exact h
      · rw [hp] at h; cases h
    · exact hl.root id
  case child_iff =>
    intro id n p hn
    rw [← parentOf_of_get? hn]
    constructor
    · intro hp
      rcases hl.place_cases (mem_keys_of_get? hn) with h | ⟨-, h⟩ | ⟨q, m, hm, hc, h⟩
      · cases h
      · rw [hp] at h; cases h
      · rw [hp] at h; cases h; exact ⟨m, hm, hc⟩
    · rintro ⟨m, hm, hc⟩; exact hl.child p m hm id hc
  case payload => exact hl.payload
  case leafless => exact leafless
  case rooted =>
    intro id hid
    have hh := hl.hung id (mem_keys.2 hid)
    induction hh with
    | @top id h =>
      obtain ⟨n, hn⟩ := contains_iff.1 hid
      exact .root hn (by rw [← parentOf_of_get? hn]; exact hl.root id h)
    | @under id p m h hm _ ih =>
      obtain ⟨n, hn⟩ := contains_iff.1 hid
      exact .child hn (by rw [← parentOf_of_get? hn]; exact hl.child p m h id hm) (ih (contains_of_get? h))

theorem WF.onlyBlocks (hw : t.WF) : t.Leafless := hw.leafless

/-! ## The way up -/

/-- The names from a step over its parents up to the top. -/
inductive Way (t : StepTree) : StepId → List StepId → Prop where
  | top {id : StepId} {n : Node} (h : t.get? id = some n) (hp : n.parent = none) : Way t id [id]
  | up {id p : StepId} {n : Node} {l : List StepId} (h : t.get? id = some n) (hp : n.parent = some p)
      (way : Way t p l) : Way t id (id :: l)

theorem Rooted.way (h : t.Rooted x) : ∃ l, t.Way x l := by
  induction h with
  | root h top => exact ⟨_, .top h top⟩
  | child h up _ ih => obtain ⟨l, hl⟩ := ih; exact ⟨_, .up h up hl⟩

theorem WF.way (hw : t.WF) (h : x ∈ t.keys) : ∃ l, t.Way x l := (hw.rooted x (mem_keys.1 h)).way

namespace Way

theorem head (w : t.Way x l) : ∃ l', l = x :: l' := by
  cases w with
  | top => exact ⟨_, rfl⟩
  | up => exact ⟨_, rfl⟩

theorem unique (w : t.Way x l) (w' : t.Way x l') : l = l' := by
  induction w generalizing l' with
  | top h hp =>
    cases w' with
    | top => rfl
    | up h' hp' => rw [h] at h'; cases h'; rw [hp] at hp'; cases hp'
  | up h hp _ ih =>
    cases w' with
    | top h' hp' => rw [h] at h'; cases h'; rw [hp] at hp'; cases hp'
    | up h' hp' w' => rw [h] at h'; cases h'; rw [hp] at hp'; cases hp'; rw [ih w']

theorem suffix (w : t.Way x l) {y : StepId} (hy : y ∈ l) : ∃ l₁ l₂, l = l₁ ++ l₂ ∧ t.Way y l₂ := by
  induction w with
  | top h hp =>
    rw [List.mem_singleton] at hy; subst hy
    exact ⟨[], _, rfl, .top h hp⟩
  | @up id p n l h hp way ih =>
    rcases List.mem_cons.1 hy with rfl | hy
    · exact ⟨[], _, rfl, .up h hp way⟩
    · obtain ⟨l₁, l₂, rfl, hl⟩ := ih hy
      exact ⟨id :: l₁, l₂, rfl, hl⟩

theorem nodup (w : t.Way x l) : l.Nodup := by
  induction w with
  | top => exact List.nodup_singleton _
  | @up id p n l h hp way ih =>
    refine List.nodup_cons.2 ⟨fun hid => ?_, ih⟩
    -- a second visit would make the way as long as its own tail
    obtain ⟨l₁, l₂, hl, w₂⟩ := way.suffix hid
    have := congrArg List.length ((up h hp way).unique w₂)
    rw [hl] at this
    simp at this; omega

theorem subset_keys (w : t.Way x l) : ∀ y ∈ l, y ∈ t.keys := by
  induction w with
  | top h => intro y hy; rw [List.mem_singleton] at hy; exact hy ▸ mem_keys_of_get? h
  | up h _ _ ih =>
    intro y hy
    rcases List.mem_cons.1 hy with rfl | hy
    · exact mem_keys_of_get? h
    · exact ih y hy

theorem length_le (w : t.Way x l) : l.length ≤ t.count := by
  rw [count_eq_length_keys]
  exact (List.subperm_of_subset w.nodup fun y hy => w.subset_keys y hy).length_le

/-- A step is met on the way up within as many parents as the way is long. -/
theorem isAbove_iff (w : t.Way x l) {fuel : Nat} (hf : l.length ≤ fuel) :
    t.isAbove a fuel x = true ↔ a ∈ l.tail := by
  induction w generalizing fuel with
  | top h hp =>
    obtain ⟨k, rfl⟩ : ∃ k, fuel = k + 1 := ⟨fuel - 1, by simp at hf; omega⟩
    unfold isAbove
    rw [parentOf_of_get? h, hp]; simp
  | @up id p n l h hp way ih =>
    obtain ⟨k, rfl⟩ : ∃ k, fuel = k + 1 := ⟨fuel - 1, by simp at hf; omega⟩
    obtain ⟨l', rfl⟩ := way.head
    unfold isAbove
    rw [parentOf_of_get? h, hp]
    simp only [List.tail_cons, List.mem_cons]
    by_cases hpa : p = a
    · simp [hpa]
    · rw [if_neg hpa, ih (by simp at hf ⊢; omega)]
      simp [Ne.symm hpa]

end Way

/-- What hangs from a step has the step on its way. -/
theorem Loose.mem_way {ls : List StepId} (hl : Loose t ls) (w : t.Way x l) (h : t.Hung [a] x) : a ∈ l := by
  induction h generalizing l with
  | top h =>
    rw [List.mem_singleton] at h; subst h
    obtain ⟨l', rfl⟩ := w.head
    exact List.mem_cons_self ..
  | @under id p m h hm _ ih =>
    have hp := hl.child p m h id hm
    cases w with
    | top hn hnp => rw [parentOf_of_get? hn, hnp] at hp; cases hp
    | up hn hnp way =>
      rw [parentOf_of_get? hn, hnp] at hp; cases hp
      exact List.mem_cons_of_mem _ (ih way)

/-- In a well-formed tree what hangs from a step is the step itself or a descendant. -/
theorem WF.eq_or_isDescendant (hw : t.WF) (hx : x ∈ t.keys) (h : t.Hung [a] x) :
    x = a ∨ t.isDescendant a x = true := by
  obtain ⟨l, w⟩ := hw.way hx
  have ha := hw.loose.mem_way w h
  have hiff := w.isAbove_iff (a := a) w.length_le
  obtain ⟨l', rfl⟩ := w.head
  rcases List.mem_cons.1 ha with rfl | ha
  · exact .inl rfl
  · exact .inr (hiff.2 ha)

/-! ## The climb without a bound -/

/-- The climb in search of an ancestor: it goes from parent to parent, and its outcome is whether it
has met the ancestor. -/
inductive Climbs (t : StepTree) (ancestor : StepId) : Option StepId → Bool → Prop where
  | ended : Climbs t ancestor none false
  | met : Climbs t ancestor (some ancestor) true
  | on {p : StepId} {b : Bool} (h : p ≠ ancestor) (up : Climbs t ancestor (t.parentOf p) b) :
      Climbs t ancestor (some p) b

theorem Way.climbs (w : t.Way x l) {fuel : Nat} (hf : l.length ≤ fuel) :
    t.Climbs a (t.parentOf x) (t.isAbove a fuel x) := by
  induction w generalizing fuel with
  | top h hp =>
    obtain ⟨k, rfl⟩ : ∃ k, fuel = k + 1 := ⟨fuel - 1, by simp at hf; omega⟩
    unfold isAbove
    rw [parentOf_of_get? h, hp]; exact .ended
  | @up id p n l h hp way ih =>
    obtain ⟨k, rfl⟩ : ∃ k, fuel = k + 1 := ⟨fuel - 1, by simp at hf; omega⟩
    unfold isAbove
    rw [parentOf_of_get? h, hp]
    by_cases hpa : p = a
    · simp only [if_pos hpa]; subst hpa; exact .met
    · simp only [if_neg hpa]; exact .on hpa (ih (by simp at hf; omega))

/-- In a well-formed tree the climb ends, with the answer that `isDescendant` gives. -/
theorem WF.climbs (hw : t.WF) (a x : StepId) : t.Climbs a (t.parentOf x) (t.isDescendant a x) := by
  by_cases hx : x ∈ t.keys
  · obtain ⟨l, w⟩ := hw.way hx
    exact w.climbs w.length_le
  · have hp : t.parentOf x = none := by unfold parentOf; rw [get?_eq_none hx]; rfl
    have hd : t.isDescendant a x = false := by
      unfold isDescendant
      cases t.count with
      | zero => rfl
      | succ k => unfold isAbove; rw [hp]
    rw [hp, hd]; exact .ended

/-! ## Building without a bound -/

/-- Building a nested step: each child that is in the table is built and put below it. -/
inductive Builds (t : StepTree) : StepId → Option Step → Prop where
  | missing {id : StepId} (h : t.get? id = none) : Builds t id none
  | node {id : StepId} {n : Node} {found : List (Option Step)} (h : t.get? id = some n)
      (below : List.Forall₂ (Builds t) n.children found) :
      Builds t id (some (n.step.withChildren (found.filterMap fun s => s)))

theorem Loose.builds {ls : List StepId} (hl : Loose t ls) :
    ∀ (fuel : Nat) (x : StepId) (l : List StepId), t.Way x l → t.count < l.length + fuel →
      t.Builds x (t.build fuel x)
  | 0, x, l, w, hf => by
    have := w.length_le; omega
  | fuel + 1, x, l, w, hf => by
    obtain ⟨n, hn⟩ : ∃ n, t.get? x = some n := by cases w with | top h => exact ⟨_, h⟩ | up h => exact ⟨_, h⟩
    have below : List.Forall₂ t.Builds n.children (n.children.map (t.build fuel)) := by
      rw [List.forall₂_map_right_iff, List.forall₂_same]
      intro c hc
      obtain ⟨k, hk⟩ := contains_iff.1 (mem_keys.1 (hl.mem_keys_of_child hn hc))
      have hkp : k.parent = some x := by rw [← parentOf_of_get? hk]; exact hl.child x n hn c hc
      exact Loose.builds hl fuel c (c :: l) (.up hk hkp w) (by simp; omega)
    unfold build
    rw [hn, Option.map_some]
    have := Builds.node hn below
    rwa [List.filterMap_map] at this

/-- In a well-formed tree building ends, with the step that `find?` gives. -/
theorem WF.builds (hw : t.WF) (x : StepId) : t.Builds x (t.find? x) := by
  by_cases hx : x ∈ t.keys
  · obtain ⟨l, w⟩ := hw.way hx
    obtain ⟨l', rfl⟩ := w.head
    exact hw.loose.builds t.count x _ w (by simp)
  · have hf : t.find? x = none := by
      unfold find?
      cases t.count with
      | zero => rfl
      | succ k => unfold build; rw [get?_eq_none hx, Option.map_none]
    rw [hf]; exact .missing (get?_eq_none hx)

end StepTree

end StepTimer
