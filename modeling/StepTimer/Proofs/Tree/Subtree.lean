/-
Adding and dropping whole subtrees. A subtree that is added is loose under its first name, whatever
names it carries, as long as the source of names is fresh; the rest of the tree stays as it is.
Dropping a loose name drops exactly what hangs from it.
-/
import StepTimer.Proofs.Tree.Loose

namespace StepTimer

namespace IdSource

variable {source : IdSource} {used used' : List String}

theorem Fresh.mono (h : source.Fresh used) (sub : ∀ x ∈ used', x ∈ used) : source.Fresh used' :=
  ⟨h.injective, fun n hn hm => h.unused n hn (sub _ hm)⟩

theorem Fresh.append (h : source.Fresh used) (h' : source.Fresh used') : source.Fresh (used ++ used') :=
  ⟨h.injective, fun n hn hx => (List.mem_append.1 hx).elim (h.unused n hn) (h'.unused n hn)⟩

theorem Fresh.next_not_mem (h : source.Fresh used) : source.next.1 ∉ used := h.unused _ (Nat.le_refl _)

theorem Fresh.next (h : source.Fresh used) : source.next.2.Fresh (source.next.1 :: used) := by
  refine ⟨h.injective, fun n hn hm => ?_⟩
  have hn : source.issued + 1 ≤ n := hn
  rcases List.mem_cons.1 hm with he | hm
  · have := h.injective _ _ he; omega
  · exact h.unused n (by omega) hm

end IdSource

namespace StepTree

variable {t : StepTree} {id x p : StepId} {n m : Node} {ls tops : List StepId} {source : IdSource}

/-! ## Adding -/

/-- The name under which a step is added, and the source after it. -/
def nameFor (source : IdSource) (t : StepTree) (id : StepId) : StepId × IdSource :=
  if t.contains id then source.next else (id, source)

theorem addSubtree_leaf (source : IdSource) (t : StepTree) (parent : Option StepId) (id : StepId) (a : Action) :
    t.addSubtree source parent (.leaf id a) =
      ((t.nameFor source id).1, t.addNode (t.nameFor source id).1 ⟨.leaf (t.nameFor source id).1 a, parent, []⟩,
        (t.nameFor source id).2) := by
  unfold addSubtree nameFor; rfl

theorem addSubtree_block (source : IdSource) (t : StepTree) (parent : Option StepId) (id : StepId) (f : Frame)
    (children : List Step) :
    t.addSubtree source parent (.block id f children) =
      ((t.nameFor source id).1,
        (t.addNode (t.nameFor source id).1 ⟨.block (t.nameFor source id).1 f [], parent, []⟩).addChildren
          (t.nameFor source id).2 (t.nameFor source id).1 children) := by
  rw [addSubtree]; unfold nameFor; rfl

theorem addChildren_cons (source : IdSource) (t : StepTree) (parent : StepId) (s : Step) (rest : List Step) :
    t.addChildren source parent (s :: rest) =
      ((t.addSubtree source (some parent) s).2.1.modifySiblings (some parent)
        (· ++ [(t.addSubtree source (some parent) s).1])).addChildren
          (t.addSubtree source (some parent) s).2.2 parent rest := by
  rw [addChildren]

theorem nameFor_not_mem {used : List String} (h : source.Fresh (id :: (t.keys ++ used))) :
    (t.nameFor source id).1 ∉ t.keys := by
  unfold nameFor
  by_cases hc : t.contains id = true
  · rw [if_pos hc]; exact fun hm => h.next_not_mem (List.mem_cons_of_mem _ (List.mem_append_left _ hm))
  · rw [if_neg hc]; exact fun hm => hc (mem_keys.1 hm)

theorem nameFor_fresh {used : List String} (h : source.Fresh (id :: used)) :
    (t.nameFor source id).2.Fresh ((t.nameFor source id).1 :: used) := by
  unfold nameFor
  by_cases hc : t.contains id = true
  · rw [if_pos hc]; exact (h.mono fun x hx => List.mem_cons_of_mem _ hx).next
  · rw [if_neg hc]; exact h

/-- What adding a step, with all steps below it, does to the rest of a tree. -/
structure Added (t : StepTree) (ls : List StepId) (parent : Option StepId) (used : List String)
    (r : StepId × StepTree × IdSource) : Prop where
  loose : Loose r.2.1 (r.1 :: ls)
  up : r.2.1.parentOf r.1 = parent
  new : r.1 ∉ t.keys
  kept : ∀ x n, t.get? x = some n → r.2.1.get? x = some n
  leafless : ∀ x n, x ∉ t.keys → r.2.1.get? x = some n → n.step.isContainer = false → n.children = []
  roots : r.2.1.roots = t.roots
  fresh : r.2.2.Fresh (r.2.1.keys ++ used)

/-- What adding steps to the end of the children of a step does to a tree. -/
structure Extended (t : StepTree) (ls : List StepId) (p : StepId) (used : List String)
    (r : StepTree × IdSource) : Prop where
  loose : Loose r.1 ls
  grown : ∀ n, t.get? p = some n →
    ∃ names, r.1.get? p = some (n.mapChildren (· ++ names)) ∧ ∀ c ∈ names, c ∉ t.keys
  kept : ∀ x n, x ≠ p → t.get? x = some n → r.1.get? x = some n
  leafless : ∀ x n, x ∉ t.keys → r.1.get? x = some n → n.step.isContainer = false → n.children = []
  roots : r.1.roots = t.roots
  fresh : r.2.Fresh (r.1.keys ++ used)

mutual

theorem added (used : List String) (source : IdSource) (t : StepTree) (ls : List StepId)
    (parent : Option StepId) (hl : Loose t ls) :
    ∀ s : Step, source.Fresh (t.keys ++ (s.ids ++ used)) →
      Added t ls parent used (t.addSubtree source parent s)
  | .leaf id a, hf => by
    rw [addSubtree_leaf]
    have hid : source.Fresh (id :: (t.keys ++ used)) := hf.mono fun x hx => by
      simp only [List.mem_append, List.mem_cons, Step.ids, List.not_mem_nil] at hx ⊢; tauto
    have hnew := nameFor_not_mem (t := t) hid
    have hfr := nameFor_fresh (t := t) hid
    constructor
    case loose => exact hl.addNode hnew rfl ⟨rfl, rfl⟩
    case up =>
      rw [parentOf_of_get? (get?_addNode_self hnew)]
    case new => exact hnew
    case kept =>
      intro x n hx
      rw [get?_addNode_ne hnew (by rintro rfl; exact hnew (mem_keys_of_get? hx))]; exact hx
    case leafless =>
      intro x n hx hn _
      rw [get?_addNode hnew] at hn
      by_cases hxi : x = (t.nameFor source id).1
      · rw [if_pos hxi] at hn; cases hn; rfl
      · rw [if_neg hxi] at hn; exact absurd (mem_keys_of_get? hn) hx
    case roots => rfl
    case fresh =>
      refine hfr.mono fun x hx => ?_
      rw [keys_addNode] at hx
      simp only [List.mem_append, List.mem_cons, List.not_mem_nil] at hx ⊢; tauto
  | .block id f children, hf => by
    rw [addSubtree_block]
    have hid : source.Fresh (id :: (t.keys ++ (Step.idsOf children ++ used))) := hf.mono fun x hx => by
      simp only [List.mem_append, List.mem_cons, Step.ids] at hx ⊢; tauto
    have hnew := nameFor_not_mem (t := t) hid
    have hfr := nameFor_fresh (t := t) hid
    have hn := get?_addNode_self (n := ⟨.block (t.nameFor source id).1 f [], parent, []⟩) hnew
    have ext := extended used (t.nameFor source id).2 _ (t.nameFor source id).1 _
      (hl.addNode (n := ⟨.block (t.nameFor source id).1 f [], parent, []⟩) hnew rfl ⟨rfl, rfl⟩) hn children
      (hfr.mono fun x hx => by
        rw [keys_addNode] at hx
        simp only [List.mem_append, List.mem_cons, List.not_mem_nil] at hx ⊢; tauto)
    obtain ⟨names, hg, -⟩ := ext.grown _ hn
    constructor
    case loose => exact ext.loose
    case up =>
      rw [parentOf_of_get? hg]; rfl
    case new => exact hnew
    case kept =>
      intro x n hx
      have hne : x ≠ (t.nameFor source id).1 := by rintro rfl; exact hnew (mem_keys_of_get? hx)
      exact ext.kept x n hne (by rw [get?_addNode_ne hnew hne]; exact hx)
    case leafless =>
      intro x n hx hxn hs
      by_cases hxi : x = (t.nameFor source id).1
      · subst hxi
        rw [hg] at hxn; cases hxn; cases hs
      · refine ext.leafless x n (fun hk => ?_) hxn hs
        rw [keys_addNode, List.mem_append, List.mem_singleton] at hk
        exact hk.elim hx hxi
    case roots => exact ext.roots
    case fresh => exact ext.fresh

theorem extended (used : List String) (source : IdSource) (t : StepTree) (p : StepId) (n : Node)
    {ls : List StepId} (hl : Loose t ls) (hn : t.get? p = some n) :
    ∀ children : List Step, source.Fresh (t.keys ++ (Step.idsOf children ++ used)) →
      Extended t ls p used (t.addChildren source p children)
  | [], hf => by
    rw [addChildren]
    refine ⟨hl, fun n hn => ⟨[], ?_, fun c hc => by cases hc⟩, fun x n _ hx => hx,
      fun x n hx hxn _ => absurd (mem_keys_of_get? hxn) hx, rfl, hf.mono fun x hx => ?_⟩
    · rw [hn]; simp [Node.mapChildren]
    · simp only [List.mem_append] at hx ⊢; tauto
  | s :: rest, hf => by
    rw [addChildren_cons]
    have add := added (Step.idsOf rest ++ used) source t ls (some p) hl s (hf.mono fun x hx => by
      simp only [Step.idsOf, List.mem_append] at hx ⊢; tauto)
    generalize t.addSubtree source (some p) s = r at add ⊢
    obtain ⟨c, t₁, source₁⟩ := r
    have hn₁ := add.kept p n hn
    have hne : p ≠ c := fun h => add.new (h ▸ mem_keys_of_get? hn)
    -- the child is loose until it is listed among the children of its parent
    have tied : Loose (t₁.modifySiblings (some p) (· ++ [c])) ls := by
      refine add.loose.attach add.up (fun names _ => List.perm_append_singleton _ _) ?_ ?_
      · rintro _ ⟨⟩; exact contains_of_get? hn₁
      · rintro _ ⟨⟩
        refine (hl.hung p (mem_keys_of_get? hn)).mono (fun q k hq => ⟨k, add.kept q k hq, fun _ h => h⟩) ?_
        intro y hy; rw [← add.roots] at hy; exact .top hy
    have hmod := modifySiblings_some (f := (· ++ [c])) (contains_of_get? hn₁)
    have hn₂ : (t₁.modifySiblings (some p) (· ++ [c])).get? p = some (n.mapChildren (· ++ [c])) := by
      rw [hmod]; exact get?_modifyNode_self hn₁
    have ext := extended used source₁ (t₁.modifySiblings (some p) (· ++ [c])) p _ tied hn₂ rest
      (add.fresh.mono fun x hx => by rw [hmod, keys_modifyNode] at hx; exact hx)
    constructor
    case loose => exact ext.loose
    case grown =>
      intro k hk
      rw [hn] at hk; cases hk
      obtain ⟨names, hg, hnew⟩ := ext.grown _ hn₂
      refine ⟨c :: names, ?_, fun d hd => ?_⟩
      · rw [hg]; simp [Node.mapChildren]
      · rcases List.mem_cons.1 hd with rfl | hd
        · exact add.new
        · intro hmem
          refine hnew d hd ?_
          obtain ⟨k, hk⟩ := contains_iff.1 (mem_keys.1 hmem)
          rw [hmod, keys_modifyNode]
          exact mem_keys_of_get? (add.kept d k hk)
    case kept =>
      intro x k hx hk
      refine ext.kept x k hx ?_
      rw [hmod, get?_modifyNode_ne hx]; exact add.kept x k hk
    case leafless =>
      intro x k hx hk hs
      by_cases hk₁ : x ∈ t₁.keys
      · obtain ⟨k₁, hk₁⟩ := contains_iff.1 (mem_keys.1 hk₁)
        have hxp : x ≠ p := by rintro rfl; exact hx (mem_keys_of_get? hn)
        have := ext.kept x k₁ hxp (by rw [hmod, get?_modifyNode_ne hxp]; exact hk₁)
        rw [this] at hk; cases hk
        exact add.leafless x _ hx hk₁ hs
      · exact ext.leafless x k (by rw [hmod, keys_modifyNode]; exact hk₁) hk hs
    case roots =>
      rw [ext.roots, hmod, roots_modifyNode]; exact add.roots
    case fresh => exact ext.fresh

end

theorem Added.keeps_leafless {parent : Option StepId} {used : List String} {r : StepId × StepTree × IdSource}
    (h : Added t ls parent used r) (hs : t.Leafless) : r.2.1.Leafless := by
  intro x k hk
  by_cases hx : x ∈ t.keys
  · obtain ⟨k', hk'⟩ := contains_iff.1 (mem_keys.1 hx)
    rw [h.kept x k' hk'] at hk; cases hk
    exact hs x _ hk'
  · exact h.leafless x k hx hk

/-! ## Dropping -/

/-- What dropping loose names does: they are gone, and what hangs from the other ones is as before. -/
structure Dropped (t : StepTree) (ls : List StepId) (r : StepTree) : Prop where
  loose : Loose r ls
  roots : r.roots = t.roots
  count_le : r.count ≤ t.count
  sub : ∀ x n, r.get? x = some n → t.get? x = some n
  kept : ∀ tops : List StepId, (∀ y ∈ tops, y ∈ ls ++ t.roots) → ∀ x, t.Hung tops x →
    r.get? x = t.get? x ∧ r.Hung tops x

variable {g : StepTree → StepId → StepTree}

theorem dropped_foldl (bound : Nat)
    (hg : ∀ t ls id, t.count ≤ bound → Loose t (id :: ls) → Dropped t ls (g t id)) :
    ∀ (names : List StepId) (t : StepTree) (ls : List StepId), t.count ≤ bound → Loose t (names ++ ls) →
      Dropped t ls (names.foldl g t)
  | [], t, ls, _, hl => ⟨hl, rfl, Nat.le_refl _, fun _ _ h => h, fun _ _ _ hx => ⟨rfl, hx⟩⟩
  | c :: names, t, ls, hb, hl => by
    have first := hg t (names ++ ls) c hb hl
    have rest := dropped_foldl bound hg names (g t c) ls (Nat.le_trans first.count_le hb) first.loose
    refine ⟨rest.loose, rest.roots.trans first.roots, Nat.le_trans rest.count_le first.count_le,
      fun x n h => first.sub x n (rest.sub x n h), ?_⟩
    intro tops sub x hx
    obtain ⟨h₁, k₁⟩ := first.kept tops (fun y hy => by
      rw [List.append_assoc]; exact List.mem_append_right _ (sub y hy)) x hx
    obtain ⟨h₂, k₂⟩ := rest.kept tops (fun y hy => by rw [first.roots]; exact sub y hy) x k₁
    exact ⟨h₂.trans h₁, k₂⟩

theorem dropped : ∀ (fuel : Nat) (t : StepTree) (ls : List StepId) (id : StepId), t.count ≤ fuel →
    Loose t (id :: ls) → Dropped t ls (dropSubtree fuel t id)
  | 0, t, ls, id, hf, hl => by
    have hk := hl.mem_keys_of_loose (List.mem_cons_self ..)
    rw [count_eq_length_keys] at hf
    rw [List.eq_nil_of_length_eq_zero (Nat.le_zero.1 hf)] at hk; cases hk
  | fuel + 1, t, ls, id, hf, hl => by
    have hk := hl.mem_keys_of_loose (List.mem_cons_self ..)
    obtain ⟨n, hn⟩ := contains_iff.1 (mem_keys.1 hk)
    have hlt := count_dropNode_lt hk
    have rest := dropped_foldl fuel (fun t ls id hb hl => dropped fuel t ls id hb hl) n.children (t.dropNode id) ls
      (by omega) (hl.dropNode hn)
    unfold dropSubtree
    rw [hn]
    refine ⟨rest.loose, rest.roots, by have := rest.count_le; simp only at this ⊢; omega,
      fun x n h => (get?_dropNode_eq_some (rest.sub x n h)).2, ?_⟩
    intro tops sub x hx
    obtain ⟨h, k⟩ := rest.kept tops sub x (hl.hung_dropNode sub hx)
    exact ⟨h.trans (get?_dropNode_ne (hl.ne_of_hung sub hx)), k⟩

theorem removed (hl : Loose t (id :: ls)) : Dropped t ls (t.removeSubtree id) :=
  dropped t.count t ls id (Nat.le_refl _) hl

theorem removed_foldl (names : List StepId) (hl : Loose t (names ++ ls)) :
    Dropped t ls (names.foldl removeSubtree t) :=
  dropped_foldl t.count (fun _ _ _ _ hl => removed hl) names t ls (Nat.le_refl _) hl

/-! ## Dropping beside a change -/

variable {f : Node → Node}

theorem keys_foldl_subset (hg : ∀ t c, ∀ x ∈ (g t c).keys, x ∈ t.keys) :
    ∀ (names : List StepId) (t : StepTree), ∀ x ∈ (names.foldl g t).keys, x ∈ t.keys
  | [], _, _, hx => hx
  | c :: names, t, x, hx => hg t c x (keys_foldl_subset hg names (g t c) x hx)

theorem keys_dropSubtree_subset : ∀ (fuel : Nat) (t : StepTree) (id : StepId),
    ∀ x ∈ (dropSubtree fuel t id).keys, x ∈ t.keys
  | 0, _, _, _, hx => hx
  | fuel + 1, t, id, x, hx => by
    unfold dropSubtree at hx
    rcases hg : t.get? id with _ | n
    · rw [hg] at hx; exact hx
    · rw [hg] at hx
      have := keys_foldl_subset (keys_dropSubtree_subset fuel) n.children (t.dropNode id) x hx
      rw [keys_dropNode] at this
      exact List.mem_of_mem_filter this

theorem dropNode_modifyNode : (t.modifyNode x f).dropNode id = (t.dropNode id).modifyNode x f := by
  unfold modifyNode dropNode
  simp only [StepTree.mk.injEq, and_true]
  rw [List.filter_map]
  congr 1
  refine List.filter_congr fun e _ => ?_
  by_cases he : e.1 = x <;> simp [he]

theorem foldl_modifyNode (sub : ∀ t c, ∀ x ∈ (g t c).keys, x ∈ t.keys)
    (hg : ∀ t c, x ∈ (g (t.modifyNode x f) c).keys → g (t.modifyNode x f) c = (g t c).modifyNode x f) :
    ∀ (names : List StepId) (t : StepTree), x ∈ (names.foldl g (t.modifyNode x f)).keys →
      names.foldl g (t.modifyNode x f) = (names.foldl g t).modifyNode x f
  | [], _, _ => rfl
  | c :: names, t, hx => by
    have h := hg t c (keys_foldl_subset sub names _ x hx)
    rw [List.foldl_cons, h] at hx ⊢
    exact foldl_modifyNode sub hg names (g t c) hx

/-- A step that is not dropped may as well be changed after the dropping as before it. -/
theorem dropSubtree_modifyNode : ∀ (fuel : Nat) (t : StepTree) (id : StepId),
    x ∈ (dropSubtree fuel (t.modifyNode x f) id).keys →
      dropSubtree fuel (t.modifyNode x f) id = (dropSubtree fuel t id).modifyNode x f
  | 0, _, _, _ => rfl
  | fuel + 1, t, id, hx => by
    unfold dropSubtree at hx ⊢
    rcases hg : t.get? id with _ | n
    · rw [get?_modifyNode, hg]; rfl
    · have hg' : (t.modifyNode x f).get? id = some (if id = x then f n else n) := by
        rw [get?_modifyNode, hg]; rfl
      rw [hg'] at hx
      have hk := keys_foldl_subset (keys_dropSubtree_subset fuel) _ _ x hx
      have hne : id ≠ x := by rintro rfl; exact not_mem_keys_dropNode hk
      rw [if_neg hne] at hg' hx
      simp only [dropNode_modifyNode] at hx
      rw [hg', dropNode_modifyNode]
      exact foldl_modifyNode (keys_dropSubtree_subset fuel) (dropSubtree_modifyNode fuel) _ _ hx

theorem removeSubtree_modifyNode (t : StepTree) (id : StepId)
    (hx : x ∈ ((t.modifyNode x f).removeSubtree id).keys) :
    (t.modifyNode x f).removeSubtree id = (t.removeSubtree id).modifyNode x f := by
  unfold removeSubtree at hx ⊢
  rw [count_modifyNode] at hx ⊢; exact dropSubtree_modifyNode _ _ _ hx

theorem keys_removeSubtree_subset (t : StepTree) (id : StepId) : ∀ x ∈ (t.removeSubtree id).keys, x ∈ t.keys :=
  keys_dropSubtree_subset t.count t id

end StepTree

end StepTimer
