/-
What a table says of nested steps. A table bears a step if it has the node of the step without its children, its parent
and the names of its children, and bears the children. A well-formed tree bears its own nested steps, and it bears no
others for its top names; so what an edit does to the nested steps is read off what it does to the nodes.
-/
import StepTimer.Proofs.Step.Nested

namespace StepTimer

/-- A node whose children do not list a name. -/
def Node.without (id : StepId) (n : Node) : Node := n.mapChildren fun names => names.filter fun x => x ≠ id

/-- The node of a name with another one listed among its children, where a drop target means them. -/
def Node.listing (target : DropTarget) (x new : StepId) (n : Node) : Node :=
  n.mapChildren (target.put (fun y => y) (some x) new)

namespace StepTree

mutual

/-- The table has the nodes of a step, under a parent, and of all steps below it. -/
def Bears (t : StepTree) (parent : Option StepId) : Step → Prop
  | .leaf id a => t.get? id = some ⟨.leaf id a, parent, []⟩
  | .block id f children =>
    t.get? id = some ⟨.block id f [], parent, children.map Step.id⟩ ∧ BearsAll t (some id) children

/-- The table has the nodes of the steps of a list, under a parent, and of all steps below them. -/
def BearsAll (t : StepTree) (parent : Option StepId) : List Step → Prop
  | [] => True
  | s :: rest => Bears t parent s ∧ BearsAll t parent rest

end

variable {t t' : StepTree} {parent q : Option StepId} {id x : StepId} {n : Node} {s r : Step} {steps : List Step}
  {ls tops : List StepId}

theorem bears_iff : t.Bears parent s ↔
    t.get? s.id = some ⟨s.bare, parent, s.children.map Step.id⟩ ∧ t.BearsAll (some s.id) s.children := by
  cases s with
  | leaf id a => exact ⟨fun h => ⟨h, trivial⟩, fun h => h.1⟩
  | block id f children => exact Iff.rfl

theorem bearsAll_iff : t.BearsAll parent steps ↔ ∀ s ∈ steps, t.Bears parent s := by
  induction steps with
  | nil => simp [BearsAll]
  | cons s rest ih => simp [BearsAll, ih]

theorem Bears.get? (h : t.Bears parent s) : t.get? s.id = some ⟨s.bare, parent, s.children.map Step.id⟩ :=
  (bears_iff.1 h).1

theorem Bears.children (h : t.Bears parent s) : t.BearsAll (some s.id) s.children := (bears_iff.1 h).2

/-! ## What is borne is built -/

mutual

theorem eq_of_builds : ∀ {s : Step} {parent : Option StepId}, t.Bears parent s → ∀ {o : Option Step},
    t.Builds s.id o → o = some s
  | .leaf id a, _, h, o, hb => by
    cases hb with
    | missing hn => rw [h.get?] at hn; cases hn
    | node hn below =>
      rw [h.get?] at hn
      cases hn
      cases below
      rfl
  | .block id f children, _, h, o, hb => by
    cases hb with
    | missing hn => rw [h.get?] at hn; cases hn
    | node hn below =>
      rw [h.get?] at hn
      cases hn
      rw [eq_of_buildsAll h.2 below, List.filterMap_map]
      show some (Step.block id f (children.filterMap some)) = _
      rw [List.filterMap_some]

theorem eq_of_buildsAll : ∀ {steps : List Step} {parent : Option StepId}, t.BearsAll parent steps →
    ∀ {found : List (Option Step)}, List.Forall₂ t.Builds (steps.map Step.id) found → found = steps.map some
  | [], _, _, found, hb => by cases hb; rfl
  | s :: rest, _, h, found, hb => by
    cases hb with
    | cons hs hrest => rw [eq_of_builds h.1 hs, eq_of_buildsAll h.2 hrest]; rfl

end

theorem WF.find?_of_bears (hw : t.WF) (h : t.Bears parent s) : t.find? s.id = some s := eq_of_builds h (hw.builds s.id)

/-- The nested steps of a well-formed tree are the ones that it bears for its top names. -/
theorem WF.toSteps_eq (hw : t.WF) (roots : t.roots = steps.map Step.id) (h : t.BearsAll none steps) :
    t.toSteps = steps := by
  have found : ∀ s ∈ steps, t.find? s.id = some s := fun s hs => hw.find?_of_bears (bearsAll_iff.1 h s hs)
  unfold toSteps
  rw [roots, List.filterMap_map]
  calc steps.filterMap (t.find? ∘ Step.id)
    _ = steps.filterMap some := List.filterMap_congr found
    _ = steps := List.filterMap_some

/-! ## What is built is borne -/

theorem filterMap_eq_of_all {make : StepId → Option Step} : ∀ {names : List StepId},
    (∀ c ∈ names, ∃ s, make c = some s ∧ s.id = c ∧ t.Bears parent s) →
      (names.filterMap make).map Step.id = names ∧ t.BearsAll parent (names.filterMap make)
  | [], _ => ⟨rfl, trivial⟩
  | c :: rest, h => by
    obtain ⟨s, hs, hid, hbears⟩ := h c (List.mem_cons_self ..)
    obtain ⟨hnames, hall⟩ := filterMap_eq_of_all fun d hd => h d (List.mem_cons_of_mem c hd)
    rw [List.filterMap_cons_some hs]
    exact ⟨by rw [List.map_cons, hid, hnames], hbears, hall⟩

/-- A name with its way up is built as a step that the table bears, when the steps below may be as many levels deep as
the way leaves over. -/
theorem Loose.bears_build (hl : Loose t ls) (leafless : t.Leafless) : ∀ (fuel : Nat) {x : StepId} {l : List StepId},
    t.Way x l → t.count < l.length + fuel → ∃ s, t.build fuel x = some s ∧ s.id = x ∧ t.Bears (t.parentOf x) s
  | 0, x, l, w, hf => by
    have := w.length_le; omega
  | fuel + 1, x, l, w, hf => by
    obtain ⟨n, hn⟩ : ∃ n, t.get? x = some n := by cases w with | top h => exact ⟨_, h⟩ | up h => exact ⟨_, h⟩
    have below : ∀ c ∈ n.children, ∃ s, t.build fuel c = some s ∧ s.id = c ∧ t.Bears (some x) s := by
      intro c hc
      have up := hl.child x n hn c hc
      obtain ⟨k, hk⟩ := contains_iff.1 (mem_keys.1 (hl.mem_keys_of_child hn hc))
      have hkp : k.parent = some x := by rw [← parentOf_of_get? hk]; exact up
      have deeper := hl.bears_build leafless fuel (Way.up hk hkp w) (by simp; omega)
      rwa [up] at deeper
    obtain ⟨names, all⟩ := filterMap_eq_of_all below
    obtain ⟨name, childless⟩ := hl.payload x n hn
    refine ⟨n.step.withChildren (n.children.filterMap (t.build fuel)), by rw [build, hn]; rfl,
      by rw [Step.id_withChildren, name], ?_⟩
    rw [parentOf_of_get? hn]
    obtain ⟨s, up, children⟩ := n
    cases s with
    | leaf _ a =>
      have : children = [] := leafless x _ hn rfl
      subst this
      cases name
      exact hn
    | block _ f below =>
      cases name
      cases childless
      exact ⟨hn.trans (by simp only at names; rw [names]), all⟩

/-- A well-formed tree bears the step that is found under a name. -/
theorem WF.bears_find? (hw : t.WF) (h : x ∈ t.keys) :
    ∃ s, t.find? x = some s ∧ s.id = x ∧ t.Bears (t.parentOf x) s := by
  obtain ⟨l, w⟩ := hw.way h
  obtain ⟨l', rfl⟩ := w.head
  exact hw.loose.bears_build hw.leafless t.count w (by simp)

/-- A well-formed tree bears its nested steps. -/
theorem WF.bears_toSteps (hw : t.WF) : t.toSteps.map Step.id = t.roots ∧ t.BearsAll none t.toSteps := by
  refine filterMap_eq_of_all fun c hc => ?_
  obtain ⟨s, hs, hid, hbears⟩ := hw.bears_find? (hw.loose.mem_keys_of_root hc)
  rw [hw.loose.root c hc] at hbears
  exact ⟨s, hs, hid, hbears⟩

theorem WF.find?_eq_none_iff (hw : t.WF) : t.find? x = none ↔ x ∉ t.keys := by
  constructor
  · intro h hx
    obtain ⟨s, hs, -⟩ := hw.bears_find? hx
    rw [hs] at h; cases h
  · intro h
    rcases hs : t.find? x with _ | s
    · rfl
    · exact absurd (mem_keys_of_build hs) h

/-! ## The names of nested steps -/

mutual

/-- What is in a step that is borne hangs where the step hangs. -/
theorem Bears.hung : ∀ {s : Step} {parent : Option StepId}, t.Bears parent s → t.Hung tops s.id →
    ∀ x ∈ s.ids, t.Hung tops x
  | .leaf id a, _, _, hs, x, hx => by rw [List.mem_singleton.1 hx]; exact hs
  | .block id f children, _, h, hs, x, hx => by
    rcases List.mem_cons.1 hx with rfl | hx
    · exact hs
    · exact BearsAll.hung h.2 (fun c hc => .under h.1 hc hs) x hx

theorem BearsAll.hung : ∀ {steps : List Step} {parent : Option StepId}, t.BearsAll parent steps →
    (∀ c ∈ steps.map Step.id, t.Hung tops c) → ∀ x ∈ Step.idsOf steps, t.Hung tops x
  | [], _, _, _, x, hx => by cases hx
  | s :: rest, _, h, hs, x, hx => by
    rw [List.map_cons, List.forall_mem_cons] at hs
    rcases List.mem_append.1 hx with hx | hx
    · exact Bears.hung h.1 hs.1 x hx
    · exact BearsAll.hung h.2 hs.2 x hx

end

mutual

theorem Bears.mem_ids : ∀ {s : Step} {parent : Option StepId}, t.Bears parent s → ∀ {x p : StepId} {m : Node},
    p ∈ s.ids → t.get? p = some m → x ∈ m.children → x ∈ s.ids
  | .leaf id a, _, h, x, p, m, hp, hm, hx => by
    rw [List.mem_singleton.1 hp, show t.get? id = _ from h] at hm
    cases hm; cases hx
  | .block id f children, _, h, x, p, m, hp, hm, hx => by
    rcases List.mem_cons.1 hp with rfl | hp
    · rw [h.1] at hm
      cases hm
      obtain ⟨c, hc, rfl⟩ := List.mem_map.1 hx
      exact List.mem_cons_of_mem _ (Step.mem_idsOf.2 ⟨c, hc, c.id_mem_ids⟩)
    · exact List.mem_cons_of_mem _ (BearsAll.mem_idsOf h.2 hp hm hx)

theorem BearsAll.mem_idsOf : ∀ {steps : List Step} {parent : Option StepId}, t.BearsAll parent steps →
    ∀ {x p : StepId} {m : Node}, p ∈ Step.idsOf steps → t.get? p = some m → x ∈ m.children → x ∈ Step.idsOf steps
  | [], _, _, x, p, m, hp, _, _ => by cases hp
  | s :: rest, _, h, x, p, m, hp, hm, hx => by
    rcases List.mem_append.1 hp with hp | hp
    · exact List.mem_append_left _ (Bears.mem_ids h.1 hp hm hx)
    · exact List.mem_append_right _ (BearsAll.mem_idsOf h.2 hp hm hx)

end

/-- What hangs from the top is in the steps that are borne there. -/
theorem BearsAll.mem_idsOf_of_hung (h : t.BearsAll parent steps) (hung : t.Hung (steps.map Step.id) x) :
    x ∈ Step.idsOf steps := by
  induction hung with
  | top hr =>
    obtain ⟨s, hs, rfl⟩ := List.mem_map.1 hr
    exact Step.mem_idsOf.2 ⟨s, hs, s.id_mem_ids⟩
  | under hp hm _ ih => exact h.mem_idsOf ih hp hm

/-- The names in the nested steps of a well-formed tree are its keys. -/
theorem WF.mem_idsOf_toSteps (hw : t.WF) : x ∈ Step.idsOf t.toSteps ↔ x ∈ t.keys := by
  constructor
  · exact fun h => hw.idsOf_toSteps_subset h
  · intro h
    obtain ⟨roots, all⟩ := hw.bears_toSteps
    exact all.mem_idsOf_of_hung (by rw [roots]; exact hw.loose.hung x h)

mutual

theorem Bears.find? : ∀ {s : Step} {parent : Option StepId}, t.Bears parent s → s.findIn? x = some r →
    ∃ q, t.Bears q r
  | .leaf id a, parent, h, hr => by
    unfold Step.findIn? at hr
    split at hr
    · cases hr; exact ⟨parent, h⟩
    · cases hr
  | .block id f children, parent, h, hr => by
    unfold Step.findIn? at hr
    split at hr
    · cases hr; exact ⟨parent, h⟩
    · exact BearsAll.find? h.2 hr

theorem BearsAll.find? : ∀ {steps : List Step} {parent : Option StepId}, t.BearsAll parent steps →
    Step.find? x steps = some r → ∃ q, t.Bears q r
  | [], _, _, hr => by cases hr
  | s :: rest, _, h, hr => by
    unfold Step.find? at hr
    split at hr
    · cases hr; exact Bears.find? h.1 ‹_›
    · exact BearsAll.find? h.2 hr

end

/-- A well-formed tree finds under a name what its nested steps have under the name. -/
theorem WF.find?_eq (hw : t.WF) (x : StepId) : t.find? x = Step.find? x t.toSteps := by
  rcases hr : Step.find? x t.toSteps with _ | r
  · rw [hw.find?_eq_none_iff, ← hw.mem_idsOf_toSteps]
    exact (Step.find?_eq_none_iff _).1 hr
  · obtain ⟨q, hbears⟩ := hw.bears_toSteps.2.find? hr
    rw [← Step.id_of_find? _ hr]
    exact hw.find?_of_bears hbears

theorem WF.find?_toSteps (hw : t.WF) (h : t.find? x = some s) : Step.find? x t.toSteps = some s := by
  rw [← hw.find?_eq]
  exact h

theorem WF.bears_of_find? (hw : t.WF) (h : t.find? x = some s) : s.id = x ∧ t.Bears (t.parentOf x) s := by
  obtain ⟨s', hs, hid, bears⟩ := hw.bears_find? (mem_keys_of_build h)
  rw [h] at hs
  cases hs
  exact ⟨hid, bears⟩

/-! ## Bearing after a change -/

mutual

/-- Steps are borne by another table that has the same nodes for them. -/
theorem BearsAll.of_same : ∀ {steps : List Step} {parent : Option StepId}, t.BearsAll parent steps →
    (∀ x ∈ Step.idsOf steps, t'.get? x = t.get? x) → t'.BearsAll parent steps
  | [], _, _, _ => trivial
  | _ :: _, _, h, same =>
    ⟨Bears.of_same h.1 fun x hx => same x (List.mem_append_left _ hx),
      BearsAll.of_same h.2 fun x hx => same x (List.mem_append_right _ hx)⟩

theorem Bears.of_same : ∀ {s : Step} {parent : Option StepId}, t.Bears parent s →
    (∀ x ∈ s.ids, t'.get? x = t.get? x) → t'.Bears parent s
  | .leaf id _, _, h, same => (same id (List.mem_singleton_self id)).trans h
  | .block id _ _, _, h, same =>
    ⟨(same id (List.mem_cons_self ..)).trans h.1, BearsAll.of_same h.2 fun x hx => same x (List.mem_cons_of_mem _ hx)⟩

end

mutual

/-- When every node no longer lists a name, the steps are borne without the one of the name. -/
theorem BearsAll.cut : ∀ {steps : List Step} {parent : Option StepId}, t.BearsAll parent steps →
    (∀ x ∈ Step.idsOf (Step.cut id steps), t'.get? x = (t.get? x).map (Node.without id)) →
      t'.BearsAll parent (Step.cut id steps)
  | [], _, _, _ => trivial
  | s :: rest, _, h, nodes => by
    unfold Step.cut at nodes ⊢
    split at nodes
    next hs =>
      rw [if_pos hs]
      exact BearsAll.cut h.2 nodes
    next hs =>
      rw [if_neg hs]
      exact ⟨Bears.cutIn h.1 fun x hx => nodes x (List.mem_append_left _ hx),
        BearsAll.cut h.2 fun x hx => nodes x (List.mem_append_right _ hx)⟩

theorem Bears.cutIn : ∀ {s : Step} {parent : Option StepId}, t.Bears parent s →
    (∀ x ∈ (Step.cutIn id s).ids, t'.get? x = (t.get? x).map (Node.without id)) → t'.Bears parent (Step.cutIn id s)
  | .leaf x a, _, h, nodes => by
    have own : t.get? x = some _ := h
    exact (nodes x (List.mem_singleton_self x)).trans (by rw [own]; rfl)
  | .block x f children, _, h, nodes => by
    have own := nodes x (List.mem_cons_self ..)
    rw [h.1, Option.map_some] at own
    refine ⟨?_, BearsAll.cut h.2 fun y hy => nodes y (List.mem_cons_of_mem _ hy)⟩
    rw [own, Step.map_id_cut]
    rfl

end

section Paste

variable {target : DropTarget} {new : Step}

/-- A list of siblings with another step put at the target is borne if the list was, and the other one is borne
wherever the target means the list. -/
theorem BearsAll.put (h : t.BearsAll parent steps) (distinct : (steps.map Step.id).Nodup)
    (host : target.Means parent (steps.map Step.id) → t.Bears parent new) :
    t.BearsAll parent (target.put Step.id parent new steps) := by
  refine bearsAll_iff.2 fun s hs => ?_
  rcases DropTarget.mem_put distinct hs with hs | ⟨rfl, means⟩
  · exact bearsAll_iff.1 h s hs
  · exact host means

/-- A step can be put at the target below the steps of a tree: what the target means there are children of a block, and
in the tree after the change the step is borne among them. -/
structure Hosts (t t' : StepTree) (target : DropTarget) (new : Step) : Prop where
  block : ∀ x n, t.get? x = some n → n.step.isContainer = false → ¬ target.Means (some x) n.children
  bears : ∀ x n, t.get? x = some n → target.Means (some x) n.children → t'.Bears (some x) new

mutual

theorem BearsAll.pasteEach (hosts : t.Hosts t' target new) :
    ∀ {steps : List Step} {parent : Option StepId}, t.BearsAll parent steps → (Step.idsOf steps).Nodup →
      (∀ x ∈ Step.idsOf steps, t'.get? x = (t.get? x).map (Node.listing target x new.id)) →
        t'.BearsAll parent (Step.pasteEach target new steps)
  | [], _, _, _, _ => trivial
  | s :: rest, _, h, nodup, nodes => by
    obtain ⟨ns, nr, -⟩ := List.nodup_append.1 nodup
    exact ⟨Bears.pasteIn hosts h.1 ns fun x hx => nodes x (List.mem_append_left _ hx),
      BearsAll.pasteEach hosts h.2 nr fun x hx => nodes x (List.mem_append_right _ hx)⟩

/-- When every node lists the name of another step where the target means its children, the steps are borne with the
other one at the target. -/
theorem Bears.pasteIn (hosts : t.Hosts t' target new) :
    ∀ {s : Step} {parent : Option StepId}, t.Bears parent s → s.ids.Nodup →
      (∀ x ∈ s.ids, t'.get? x = (t.get? x).map (Node.listing target x new.id)) →
        t'.Bears parent (Step.pasteIn target new s)
  | .leaf x a, parent, h, _, nodes => by
    have own : t.get? x = some ⟨.leaf x a, parent, []⟩ := h
    have same : target.put (fun y => y) (some x) new.id [] = [] :=
      DropTarget.put_of_not_means (hosts.block x _ own rfl)
    refine (nodes x (List.mem_singleton_self x)).trans ?_
    rw [own, Option.map_some, Node.listing, Node.mapChildren, same]
  | .block x f children, parent, h, nodup, nodes => by
    obtain ⟨-, nodup⟩ := List.nodup_cons.1 nodup
    have names := Step.map_id_pasteEach target new children
    constructor
    · -- the names of the new children are the old ones with the name at the target
      rw [nodes x (List.mem_cons_self ..), h.1, DropTarget.map_put (fun y => y) fun _ => rfl, names]
      rfl
    · have below := BearsAll.pasteEach hosts h.2 nodup fun y hy => nodes y (List.mem_cons_of_mem _ hy)
      refine below.put (Step.nodup_map_id_pasteEach nodup) fun means => ?_
      rw [names] at means
      exact hosts.bears x _ h.1 means

end

/-- The steps are borne with another one at the target when it is borne wherever the target means. -/
theorem BearsAll.paste (hosts : t.Hosts t' target new) (h : t.BearsAll none steps) (nodup : (Step.idsOf steps).Nodup)
    (nodes : ∀ x ∈ Step.idsOf steps, t'.get? x = (t.get? x).map (Node.listing target x new.id))
    (top : target.Means none (steps.map Step.id) → t'.Bears none new) :
    t'.BearsAll none (Step.paste target new steps) := by
  have each := BearsAll.pasteEach hosts h nodup nodes
  refine each.put (Step.nodup_map_id_pasteEach nodup) fun means => ?_
  rw [Step.map_id_pasteEach] at means
  exact top means

end Paste

section Graft

variable {new : Step}

mutual

/-- When the nodes outside of a step stay and another step is borne in its place, the steps are borne with the other
one in that place. -/
theorem BearsAll.graft (hid : new.id = id) (own : t'.Bears (t.parentOf id) new) :
    ∀ {steps : List Step} {parent : Option StepId}, t.BearsAll parent steps →
    (∀ x ∈ Step.idsOf (Step.cut id steps), t'.get? x = t.get? x) → t'.BearsAll parent (Step.graft id new steps)
  | [], _, _, _ => trivial
  | s :: rest, parent, h, same => by
    unfold Step.cut at same
    split at same
    next hs =>
      have up : t.parentOf id = parent := by rw [← hs, parentOf_of_get? h.1.get?]
      refine ⟨?_, BearsAll.graft hid own h.2 same⟩
      rw [Step.graftIn_self hs, ← up]
      exact own
    next hs =>
      exact ⟨Bears.graftIn hid own h.1 hs fun x hx => same x (List.mem_append_left _ hx),
        BearsAll.graft hid own h.2 fun x hx => same x (List.mem_append_right _ hx)⟩

theorem Bears.graftIn (hid : new.id = id) (own : t'.Bears (t.parentOf id) new) :
    ∀ {s : Step} {parent : Option StepId}, t.Bears parent s → s.id ≠ id →
    (∀ x ∈ (Step.cutIn id s).ids, t'.get? x = t.get? x) → t'.Bears parent (Step.graftIn id new s)
  | .leaf x a, _, h, hs, same => by
    have hx : x ≠ id := hs
    rw [Step.graftIn, if_neg hx]
    exact (same x (List.mem_singleton_self x)).trans h
  | .block x f children, _, h, hs, same => by
    have hx : x ≠ id := hs
    rw [Step.graftIn, if_neg hx]
    refine ⟨?_, BearsAll.graft hid own h.2 fun y hy => same y (List.mem_cons_of_mem _ hy)⟩
    rw [same x (List.mem_cons_self ..), h.1, Step.map_id_graft hid]

end

end Graft

end StepTree

end StepTimer
