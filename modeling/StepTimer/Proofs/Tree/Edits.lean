/-
Every edit keeps a tree well-formed: a deletion, an insertion, a move, a duplication and a replacement,
whether they are carried out or refused, and so does the making of a tree from nested steps. An edit
that needs fresh names takes them from a source that is fresh for the tree and the arguments.
-/
import StepTimer.Proofs.Tree.Way
import StepTimer.Proofs.Tree.Subtree

namespace StepTimer

/-! ## Fresh copies -/

namespace Step

mutual

theorem fresh_withFreshIds {used : List String} (source : IdSource) (hf : source.Fresh used) :
    ∀ s : Step, (s.withFreshIds source).2.Fresh (used ++ (s.withFreshIds source).1.ids)
  | .leaf id a => by
    unfold withFreshIds ids
    exact hf.next.mono fun x hx => by simp only [List.mem_append, List.mem_cons] at hx ⊢; tauto
  | .block id f children => by
    unfold withFreshIds ids
    have := fresh_withFreshIdsEach source.next.2 hf.next children
    exact this.mono fun x hx => by simp only [List.mem_append, List.mem_cons] at hx ⊢; tauto

theorem fresh_withFreshIdsEach {used : List String} (source : IdSource) (hf : source.Fresh used) :
    ∀ steps : List Step, (withFreshIdsEach source steps).2.Fresh (used ++ idsOf (withFreshIdsEach source steps).1)
  | [] => by
    unfold withFreshIdsEach idsOf
    rw [List.append_nil]; exact hf
  | s :: rest => by
    unfold withFreshIdsEach idsOf
    have := fresh_withFreshIdsEach (s.withFreshIds source).2 (fresh_withFreshIds source hf s) rest
    exact this.mono fun x hx => by simp only [List.mem_append] at hx ⊢; tauto

end

end Step

namespace StepTree

variable {t : StepTree} {id x p : StepId} {n m : Node} {ls : List StepId} {source : IdSource}

open scoped List

/-! ## Making a tree -/

theorem loose_empty : Loose empty [] := by
  refine ⟨List.nodup_nil, List.Perm.nil, ?_, ?_, ?_, ?_⟩
  · intro id h; cases h
  · intro p m h; cases h
  · intro id h; cases h
  · intro id n h; cases h

theorem leafless_empty : empty.Leafless := by
  intro id n h; cases h

theorem addRoots_cons (source : IdSource) (t : StepTree) (s : Step) (rest : List Step) :
    addRoots source t (s :: rest) =
      addRoots (t.addSubtree source none s).2.2
        ((t.addSubtree source none s).2.1.modifySiblings none (· ++ [(t.addSubtree source none s).1])) rest := by
  rw [addRoots]; rfl

theorem loose_addRoots (used : List String) : ∀ (steps : List Step) (source : IdSource) (t : StepTree), Loose t [] →
    t.Leafless → source.Fresh (t.keys ++ (Step.idsOf steps ++ used)) →
      Loose (addRoots source t steps).1 [] ∧ (addRoots source t steps).1.Leafless ∧
        (addRoots source t steps).2.Fresh ((addRoots source t steps).1.keys ++ used)
  | [], source, t, hl, hs, hf => by
    rw [addRoots]; exact ⟨hl, hs, by rwa [Step.idsOf, List.nil_append] at hf⟩
  | s :: rest, source, t, hl, hs, hf => by
    rw [addRoots_cons]
    have add := added (Step.idsOf rest ++ used) source t [] none hl s (by rwa [Step.idsOf, List.append_assoc] at hf)
    refine loose_addRoots used rest _ _ (add.loose.attach add.up ?_ ?_ ?_) ?_ add.fresh
    · exact fun _ _ => List.perm_append_singleton _ _
    · rintro _ ⟨⟩
    · rintro _ ⟨⟩
    · exact (add.keeps_leafless hs).modifySiblings (by rintro _ ⟨⟩)

/-- The tree of nested steps is well-formed, whatever names repeat in them. -/
theorem wf_ofSteps (steps : List Step) (hf : source.Fresh (Step.idsOf steps)) : (ofSteps source steps).1.WF := by
  obtain ⟨hl, hs, -⟩ := loose_addRoots [] steps source empty loose_empty leafless_empty (by rwa [List.append_nil])
  exact hl.wf hs

/-- When nested steps have been made a tree, the source is still fresh for it and for all that it was fresh for. -/
theorem fresh_ofSteps {used : List String} {steps : List Step} (hf : source.Fresh (Step.idsOf steps ++ used)) :
    (ofSteps source steps).2.Fresh ((ofSteps source steps).1.keys ++ used) :=
  (loose_addRoots used steps source empty loose_empty leafless_empty hf).2.2

/-! ## Places -/

theorem siblings_some {names : List StepId} (h : t.siblings (some p) = some names) :
    ∃ m, t.get? p = some m ∧ m.children = names := by
  unfold siblings at h; rwa [Option.map_eq_some_iff] at h

/-- What a place relative to a step is: inside a block at the end of its children, or in the list that
names the step, at the step or right after it. -/
theorem slotFor_relative {target : StepId} {position : Position} {slot : Slot}
    (h : t.slotFor (.relative target position) = some slot) : ∃ n, t.get? target = some n ∧
      ((position = .inside ∧ n.step.isContainer = true ∧ slot = ⟨some target, n.children.length⟩) ∨
        ∃ names i, t.siblings n.parent = some names ∧ names.idxOf? target = some i ∧
          ((position = .before ∧ slot = ⟨n.parent, i⟩) ∨ (position = .after ∧ slot = ⟨n.parent, i + 1⟩))) := by
  unfold slotFor at h
  obtain ⟨n, hn, h⟩ := Option.bind_eq_some_iff.1 h
  refine ⟨n, hn, ?_⟩
  cases position with
  | inside =>
    simp only at h
    split at h
    · rename_i hc
      cases h; exact .inl ⟨rfl, hc, rfl⟩
    · cases h
  | before =>
    obtain ⟨names, hnames, h⟩ := Option.bind_eq_some_iff.1 h
    obtain ⟨i, hi, h⟩ := Option.bind_eq_some_iff.1 h
    cases h
    exact .inr ⟨names, i, hnames, hi, .inl ⟨rfl, rfl⟩⟩
  | after =>
    obtain ⟨names, hnames, h⟩ := Option.bind_eq_some_iff.1 h
    obtain ⟨i, hi, h⟩ := Option.bind_eq_some_iff.1 h
    cases h
    exact .inr ⟨names, i, hnames, hi, .inr ⟨rfl, rfl⟩⟩

/-- What a place is: its list is in the tree, its index is in the list, and only a block holds it. -/
structure Slot.Fits (t : StepTree) (slot : Slot) : Prop where
  list : ∃ names, t.siblings slot.parent = some names ∧ slot.index ≤ names.length
  block : ∀ p, slot.parent = some p → ∃ m, t.get? p = some m ∧ m.step.isContainer = true

theorem slotFor_fits (hs : t.Leafless) {target : DropTarget} {slot : Slot} (h : t.slotFor target = some slot) :
    slot.Fits t := by
  cases target with
  | rootStart => cases h; exact ⟨⟨t.roots, rfl, Nat.zero_le _⟩, by rintro _ ⟨⟩⟩
  | rootEnd => cases h; exact ⟨⟨t.roots, rfl, Nat.le_refl _⟩, by rintro _ ⟨⟩⟩
  | relative target position =>
    obtain ⟨n, hn, ⟨-, hc, rfl⟩ | ⟨names, i, hnames, hi, hslot⟩⟩ := slotFor_relative h
    · exact ⟨⟨n.children, siblings_of_get? hn, Nat.le_refl _⟩, by rintro _ ⟨⟩; exact ⟨n, hn, hc⟩⟩
    · obtain ⟨hlt, hget, -⟩ := List.idxOf?_eq_some_iff.1 hi
      have parent : slot.parent = n.parent := by rcases hslot with ⟨-, rfl⟩ | ⟨-, rfl⟩ <;> rfl
      have index : slot.index ≤ names.length := by rcases hslot with ⟨-, rfl⟩ | ⟨-, rfl⟩ <;> simp only <;> omega
      refine ⟨⟨names, by rw [parent]; exact hnames, index⟩, fun p hp => ?_⟩
      rw [← parent, hp] at hnames
      obtain ⟨m, hm, rfl⟩ := siblings_some hnames
      refine ⟨m, hm, ?_⟩
      -- the list is not empty, so it is that of a block
      by_contra hc
      rw [hs p m hm (by simpa using hc)] at hlt
      exact absurd hlt (Nat.not_lt_zero _)

/-- A place of one tree is a place of every other in which its list is the same. -/
theorem Slot.Fits.of_kept {t' : StepTree} {slot : Slot} (h : slot.Fits t) (roots : t'.roots = t.roots)
    (kept : ∀ p m, t.get? p = some m → ∃ m', t'.get? p = some m' ∧ m'.step = m.step ∧
      m'.children = m.children) : slot.Fits t' := by
  constructor
  · obtain ⟨names, hnames, hi⟩ := h.list
    rcases hp : slot.parent with _ | p
    · rw [hp] at hnames; cases hnames
      exact ⟨t'.roots, rfl, by rw [roots]; exact hi⟩
    · rw [hp] at hnames
      obtain ⟨m, hm, rfl⟩ := siblings_some hnames
      obtain ⟨m', hm', -, hch⟩ := kept p m hm
      exact ⟨m'.children, siblings_of_get? hm', by rw [hch]; exact hi⟩
  · intro p hp
    obtain ⟨m, hm, hb⟩ := h.block p hp
    obtain ⟨m', hm', hset, -⟩ := kept p m hm
    exact ⟨m', hm', by rw [hset]; exact hb⟩

/-- The parent of a place next to or inside a step hangs wherever the step hangs. -/
theorem slotFor_hung (hl : Loose t ls) {target : StepId} {position : Position} {slot : Slot}
    (h : t.slotFor (.relative target position) = some slot) (hh : t.Hung t.roots target)
    (hp : slot.parent = some p) : t.Hung t.roots p := by
  obtain ⟨n, hn, ⟨-, -, rfl⟩ | ⟨names, i, -, -, hslot⟩⟩ := slotFor_relative h
  · cases hp; exact hh
  · have hup : t.parentOf target = some p := by
      rw [parentOf_of_get? hn, ← hp]
      rcases hslot with ⟨-, rfl⟩ | ⟨-, rfl⟩ <;> rfl
    cases hh with
    | top hr => rw [hl.root target hr] at hup; cases hup
    | under hq hm hung => rw [hl.child _ _ hq target hm] at hup; cases hup; exact hung

/-- A loose name whose parent is that of a place may be put there. -/
theorem Loose.place (hl : Loose t (id :: ls)) {slot : Slot} (fits : slot.Fits t) (up : t.parentOf id = slot.parent)
    (hang : ∀ p, slot.parent = some p → t.Hung (ls ++ t.roots) p) : Loose (t.place slot id) ls := by
  obtain ⟨names, hnames, hi⟩ := fits.list
  refine hl.attach up (fun names' hn => ?_) (fun p hp => ?_) hang
  · rw [hnames] at hn; cases hn
    exact List.perm_insertIdx id names hi
  · obtain ⟨m, hm, -⟩ := fits.block p hp
    exact contains_of_get? hm

theorem Leafless.place (hs : t.Leafless) {slot : Slot} (fits : slot.Fits t) : (t.place slot id).Leafless := by
  refine hs.modifySiblings fun p hp => ?_
  obtain ⟨m, hm, hc⟩ := fits.block p hp
  exact ⟨m, hm, fun h => by rw [hc] at h; cases h⟩

/-! ## Taking out -/

theorem get?_detach (h : (t.detach id).get? p = some m) :
    ∃ k, t.get? p = some k ∧ m.step = k.step ∧ ∀ c ∈ m.children, c ∈ k.children := by
  unfold detach at h
  rcases hu : t.parentOf id with _ | q
  · rw [hu] at h; exact ⟨m, h, rfl, fun _ hc => hc⟩
  · rw [hu] at h
    obtain ⟨n, hn, -⟩ := get?_of_parentOf hu
    by_cases hq : t.contains q = true
    · rw [modifySiblings_some hq, get?_modifyNode, Option.map_eq_some_iff] at h
      obtain ⟨k, hk, rfl⟩ := h
      refine ⟨k, hk, ?_⟩
      by_cases hpq : p = q
      · rw [if_pos hpq]; exact ⟨rfl, fun c hc => List.mem_of_mem_filter hc⟩
      · rw [if_neg hpq]; exact ⟨rfl, fun _ hc => hc⟩
    · rw [modifySiblings_missing hq] at h; exact ⟨m, h, rfl, fun _ hc => hc⟩

theorem Leafless.detach (hs : t.Leafless) (id : StepId) : (t.detach id).Leafless := by
  intro p m hm hset
  obtain ⟨k, hk, hks, hsub⟩ := get?_detach hm
  rw [hks] at hset
  have := hs p k hk hset
  rw [this] at hsub
  exact List.eq_nil_iff_forall_not_mem.2 fun c hc => by have := hsub c hc; cases this

/-! ## The edits -/

theorem wf_delete (hw : t.WF) (id : StepId) : (t.delete id).WF := by
  unfold delete
  by_cases hc : t.contains id = true
  · rw [if_pos hc]
    have drop := removed (hw.loose.detach (mem_keys.2 hc) List.not_mem_nil)
    exact drop.loose.wf fun p m hm => hw.onlyBlocks.detach id p m (drop.sub p m hm)
  · rw [if_neg hc]; exact hw

theorem wf_insertAt (hw : t.WF) (target : DropTarget) (s : Step) (hf : source.Fresh (t.keys ++ s.ids)) :
    (t.insertAt source target s).1.WF := by
  unfold insertAt
  rcases hslot : t.slotFor target with _ | slot
  · exact hw
  · by_cases hfree : t.idsAreFree s = true
    · simp only [if_pos hfree]
      have fits := slotFor_fits hw.leafless hslot
      have add := added [] source t [] slot.parent hw.loose s (by rwa [List.append_nil])
      generalize t.addSubtree source slot.parent s = r at add ⊢
      obtain ⟨c, t₁, source₁⟩ := r
      have fits₁ : slot.Fits t₁ := fits.of_kept add.roots fun p m hm => ⟨m, add.kept p m hm, rfl, rfl⟩
      have hang : ∀ p, slot.parent = some p → t₁.Hung ([] ++ t₁.roots) p := fun p hp => by
        obtain ⟨m, hm, -⟩ := fits.block p hp
        refine (hw.loose.hung p (mem_keys_of_get? hm)).mono (fun q k hq => ⟨k, add.kept q k hq, fun _ h => h⟩) ?_
        intro y hy; rw [← add.roots] at hy; exact .top hy
      exact (add.loose.place fits₁ add.up hang).wf ((add.keeps_leafless hw.leafless).place fits₁)
    · simp only [if_neg hfree]; exact hw

/-- A change of a node that leaves its children alone may come before or after a change of children. -/
theorem modifySiblings_modifyNode {g : Node → Node} {f : List StepId → List StepId} {parent : Option StepId}
    (h : ∀ n, g (n.mapChildren f) = (g n).mapChildren f) :
    (t.modifySiblings parent f).modifyNode id g = (t.modifyNode id g).modifySiblings parent f := by
  cases parent with
  | none => rfl
  | some p =>
    by_cases hp : t.contains p = true
    · rw [modifySiblings_some hp, modifySiblings_some (contains_modifyNode.trans hp)]
      exact modifyNode_comm fun _ n => (h n).symm
    · rw [modifySiblings_missing hp, modifySiblings_missing (by rw [contains_modifyNode]; exact hp)]; rfl

/-- What is neither a step nor a descendant of it still hangs from the top when the step is detached. -/
theorem hung_detach (hw : t.WF) (hid : id ∈ t.keys) (hx : x ∈ (t.detach id).keys) (hne : x ≠ id)
    (hd : t.isDescendant id x = false) : (t.detach id).Hung (t.detach id).roots x := by
  have hl := hw.loose.detach hid List.not_mem_nil
  rcases (show (t.detach id).Hung ([id] ++ (t.detach id).roots) x from hl.hung x hx).append with h | h
  · have hxt : x ∈ t.keys := by
      obtain ⟨m, hm⟩ := contains_iff.1 (mem_keys.1 hx)
      obtain ⟨k, hk, -⟩ := get?_detach hm
      exact mem_keys_of_get? hk
    have hung : t.Hung [id] x := h.mono (fun p m hm => by
      obtain ⟨k, hk, -, hsub⟩ := get?_detach hm
      exact ⟨k, hk, hsub⟩) fun y hy => .top hy
    rcases hw.eq_or_isDescendant hxt hung with h | h
    · exact absurd h hne
    · rw [hd] at h; cases h
  · exact h

/-- The list that a step is moved to is not below the step. -/
theorem hung_slot (hw : t.WF) (hid : id ∈ t.keys) {target : DropTarget} (hself : t.targetsSelf id target = false)
    {slot : Slot} (hslot : (t.detach id).slotFor target = some slot) (hp : slot.parent = some p) :
    (t.detach id).Hung (t.detach id).roots p := by
  have hl := hw.loose.detach hid List.not_mem_nil
  cases target with
  | rootStart => cases hslot; cases hp
  | rootEnd => cases hslot; cases hp
  | relative y position =>
    unfold targetsSelf at hself
    rw [Bool.or_eq_false_iff, decide_eq_false_iff_not] at hself
    obtain ⟨m, hm, -⟩ := slotFor_relative hslot
    exact slotFor_hung hl hslot (hung_detach hw hid (mem_keys_of_get? hm) hself.1 hself.2) hp

theorem wf_moveTo (hw : t.WF) (id : StepId) (target : DropTarget) : (t.moveTo id target).WF := by
  unfold moveTo
  split
  · exact hw
  · rename_i hgo
    rw [Bool.not_eq_true, Bool.or_eq_false_iff, Bool.or_eq_false_iff, Bool.not_eq_false'] at hgo
    obtain ⟨⟨hc, hself⟩, -⟩ := hgo
    rcases hslot : (t.detach id).slotFor target with _ | slot
    · simp only [hslot]; exact hw
    · simp only [hslot]
      have hid := mem_keys.2 hc
      have hl := hw.loose.detach hid List.not_mem_nil
      have hls := hw.onlyBlocks.detach id
      have fits := slotFor_fits hls hslot
      obtain ⟨n, hn⟩ := contains_iff.1 (mem_keys.1 (hl.mem_keys_of_loose (List.mem_cons_self ..)))
      -- the moved step may be given its new parent first
      have comm : ((t.detach id).place slot id).modifyNode id (fun n => { n with parent := slot.parent }) =
          ((t.detach id).modifyNode id fun n => { n with parent := slot.parent }).place slot id :=
        modifySiblings_modifyNode fun _ => rfl
      have kept : ∀ p m, (t.detach id).get? p = some m → ∃ m',
          ((t.detach id).modifyNode id fun n => { n with parent := slot.parent }).get? p = some m' ∧
            m'.step = m.step ∧ m'.children = m.children := by
        intro p m hm
        rw [get?_modifyNode, hm]
        by_cases hp : p = id
        · exact ⟨_, rfl, by simp [hp], by simp [hp]⟩
        · exact ⟨_, rfl, by simp [hp], by simp [hp]⟩
      have hl' := hl.relabel id (fun n => { n with parent := slot.parent }) (fun _ => rfl) (hl.payload id)
        (.inl (List.mem_cons_self ..))
      have fits' : slot.Fits ((t.detach id).modifyNode id fun n => { n with parent := slot.parent }) :=
        fits.of_kept rfl kept
      rw [comm]
      have hls' := hls.modifyNode id (fun n => { n with parent := slot.parent }) fun n hn => hls id n hn
      refine (hl'.place fits' ?_ fun p hp => ?_).wf (hls'.place fits')
      · rw [parentOf_of_get? (get?_modifyNode_self hn)]
      · refine (hung_slot hw hid hself hslot hp).mono (fun q k hq => ?_) fun y hy => .top hy
        obtain ⟨m', hm', -, hch⟩ := kept q k hq
        exact ⟨m', hm', fun c hc => by rw [hch]; exact hc⟩

theorem wf_duplicate (hw : t.WF) (id : StepId) (hf : source.Fresh t.keys) : (t.duplicate source id).1.WF := by
  unfold duplicate
  rcases t.find? id with _ | found
  · exact hw
  · exact wf_insertAt hw _ _ (Step.fresh_withFreshIds source hf found)

/-- The way to a step does not lead through the step itself. -/
theorem hung_clear (hn : t.get? id = some n) {tops : List StepId} (h : t.Hung tops x) :
    (t.modifyNode id (Node.mapChildren fun _ => [])).Hung tops x ∨
      (t.modifyNode id (Node.mapChildren fun _ => [])).Hung tops id := by
  induction h with
  | top h => exact .inl (.top h)
  | @under y p m hp hm _ ih =>
    rcases ih with ih | ih
    · by_cases hpi : p = id
      · subst hpi; exact .inr ih
      · exact .inl (.under (by rw [get?_modifyNode_ne hpi]; exact hp) hm ih)
    · exact .inr ih

/-- A step that is emptied hangs where it hung. -/
theorem hung_emptied (hw : t.WF) (hn : t.get? id = some n) :
    (t.modifyNode id (Node.mapChildren fun _ => [])).Hung t.roots id := by
  rcases hung_clear hn (hw.loose.hung id (mem_keys_of_get? hn)) with h | h <;> exact h

/-- A step without its children: those and all steps below them are dropped, and nothing else. -/
theorem dropped_cleared (hw : t.WF) (hn : t.get? id = some n) :
    Dropped (t.modifyNode id (Node.mapChildren fun _ => [])) []
      ((n.children.foldl removeSubtree t).modifyNode id fun n => { n with children := [] }) := by
  have drop := removed_foldl n.children (hw.loose.clear hn)
  have kept := (drop.kept t.roots (fun y hy => hy) id (hung_emptied hw hn)).1
  rw [get?_modifyNode_self hn] at kept
  -- the step survives, so it may be emptied before or after its children are dropped
  have comm := foldl_modifyNode keys_removeSubtree_subset (fun t c => removeSubtree_modifyNode t c)
    n.children t (mem_keys_of_get? kept)
  rw [comm] at drop
  exact drop

/-- A step without its children: the tree is whole again, and the step is where it was. -/
theorem cleared (hw : t.WF) (hn : t.get? id = some n) :
    let t' := (n.children.foldl removeSubtree t).modifyNode id fun n => { n with children := [] }
    Loose t' [] ∧ t'.Leafless ∧ t'.get? id = some (n.mapChildren fun _ => []) ∧ ∀ x ∈ t'.keys, x ∈ t.keys := by
  have drop := dropped_cleared hw hn
  have kept := (drop.kept t.roots (fun y hy => hy) id (hung_emptied hw hn)).1
  rw [get?_modifyNode_self hn] at kept
  refine ⟨drop.loose, fun p m hm hs => ?_, kept, fun x hx => ?_⟩
  rotate_left
  · rw [keys_modifyNode] at hx; exact keys_foldl_subset keys_removeSubtree_subset n.children t x hx
  refine (hw.onlyBlocks.modifyNode id (Node.mapChildren fun _ => []) fun _ _ _ => rfl) p m ?_ hs
  exact drop.sub p m hm

/-- A step may be changed for another one of its name, if it has no children or the other one holds them. -/
theorem wf_swap (hl : Loose t []) {s : Step} (own : s.id = id ∧ s.children = [])
    (hs : ∀ p m, p ≠ id → t.get? p = some m → m.step.isContainer = false → m.children = [])
    (hid : ∀ m, t.get? id = some m → s.isContainer = false → m.children = []) :
    (t.modifyNode id fun n => { n with step := s }).WF := by
  have hl' := hl.relabel id (fun n => { n with step := s }) (fun _ => rfl) (fun _ _ => own) (.inr fun _ => rfl)
  refine hl'.wf fun p m hm hset => ?_
  rw [get?_modifyNode, Option.map_eq_some_iff] at hm
  obtain ⟨k, hk, rfl⟩ := hm
  by_cases hp : p = id
  · subst hp
    rw [if_pos rfl] at hset ⊢; exact hid k hk hset
  · rw [if_neg hp] at hset ⊢; exact hs p k hp hk hset

theorem wf_replace (hw : t.WF) (id : StepId) (s : Step) (hf : source.Fresh (t.keys ++ Step.idsOf s.children)) :
    (t.replace source id s).1.WF := by
  have own : (s.withId id).bare.id = id ∧ (s.withId id).bare.children = [] := by simp
  have kind : (s.withId id).bare.isContainer = s.isContainer := by simp
  unfold replace
  rcases hn : t.get? id with _ | n
  · exact hw
  · simp only
    split
    · rename_i hkeep
      rw [Bool.and_eq_true] at hkeep
      exact wf_swap hw.loose own (fun p m _ => hw.leafless p m) fun m _ hs => by
        rw [kind, hkeep.1] at hs; cases hs
    · rename_i hkeep
      split
      · obtain ⟨hl, hls, hg, hsub⟩ := cleared hw hn
        generalize (n.children.foldl removeSubtree t).modifyNode id (fun n => { n with children := [] }) = t' at *
        have ext := extended [] source t' id _ hl hg s.children (hf.mono fun x hx => by
          rw [List.append_nil] at hx
          exact List.mem_append.2 ((List.mem_append.1 hx).imp_left (hsub x)))
        refine wf_swap ext.loose own (fun p m hp hm hs => ?_) fun m hm hs => ?_
        · by_cases hk : p ∈ t'.keys
          · obtain ⟨k, hk⟩ := contains_iff.1 (mem_keys.1 hk)
            rw [ext.kept p k hp hk] at hm; cases hm
            exact hls p _ hk hs
          · exact ext.leafless p m hk hm hs
        · -- only a step that is given no children becomes an action
          have hc : s.children = [] := by
            cases s with
            | leaf _ a => rfl
            | block _ f children => cases hs
          rw [hc, addChildren, hg] at hm
          cases hm; rfl
      · exact hw

end StepTree

end StepTimer
