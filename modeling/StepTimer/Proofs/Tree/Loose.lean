/-
Trees in the middle of an edit. While an edit is under way some steps are in the table and in no list
of names: they are loose. `Loose t ls` says that `t` is a tree but for the loose names `ls`; a tree
in which only blocks have children is well-formed exactly when nothing is loose. Each small change of an edit makes a name loose or ties
a loose name up again, and keeps everything else.
-/
import StepTimer.Proofs.Tree.Table

namespace StepTimer

/-- A node with other children. -/
def Node.mapChildren (f : List StepId → List StepId) (n : Node) : Node := { n with children := f n.children }

namespace StepTree

open scoped List

variable {t t' : StepTree} {id x p : StepId} {n m : Node} {ls tops tops' : List StepId}

/-- A name hangs below one of `tops`: it is one of them or listed by a step that hangs there. -/
inductive Hung (t : StepTree) (tops : List StepId) : StepId → Prop where
  | top {id : StepId} (h : id ∈ tops) : Hung t tops id
  | under {id p : StepId} {m : Node} (h : t.get? p = some m) (hm : id ∈ m.children) (up : Hung t tops p) :
      Hung t tops id

theorem modifySiblings_some {f : List StepId → List StepId} (h : t.contains p = true) :
    t.modifySiblings (some p) f = t.modifyNode p (Node.mapChildren f) := if_pos h

theorem modifySiblings_missing {f : List StepId → List StepId} (h : t.contains p ≠ true) :
    t.modifySiblings (some p) f = { t with roots := f t.roots } := if_neg h

theorem siblings_of_get? (h : t.get? p = some m) : t.siblings (some p) = some m.children := by
  show (t.get? p).map (·.children) = some m.children
  rw [h]; rfl

/-- The table is a tree but for the loose names, which no list holds. -/
structure Loose (t : StepTree) (ls : List StepId) : Prop where
  nodupKeys : t.keys.Nodup
  /-- The loose names and the lists of names hold every key exactly once and nothing else. -/
  mentioned : (ls ++ t.mentions).Perm t.keys
  root : ∀ id ∈ t.roots, t.parentOf id = none
  child : ∀ p m, t.get? p = some m → ∀ id ∈ m.children, t.parentOf id = some p
  hung : ∀ id ∈ t.keys, t.Hung (ls ++ t.roots) id
  payload : ∀ id n, t.get? id = some n → n.step.id = id ∧ n.step.children = []

theorem perm_cons_filter_ne {l : List StepId} (hd : l.Nodup) (h : id ∈ l) :
    l.Perm (id :: l.filter fun x => x ≠ id) := by
  have : l.filter (fun x => decide (x ≠ id)) = l.erase id := by
    rw [hd.erase_eq_filter]; exact List.filter_congr fun x _ => by by_cases hx : x = id <;> simp [bne, hx]
  rw [this]; exact List.perm_cons_erase h

/-- Only blocks have children. -/
def Leafless (t : StepTree) : Prop :=
  ∀ id n, t.get? id = some n → n.step.isContainer = false → n.children = []

theorem Leafless.modifyNode (h : t.Leafless) (id : StepId) (f : Node → Node)
    (hf : ∀ n, t.get? id = some n → (f n).step.isContainer = false → (f n).children = []) :
    (t.modifyNode id f).Leafless := by
  intro p m hm hs
  rw [get?_modifyNode, Option.map_eq_some_iff] at hm
  obtain ⟨k, hk, rfl⟩ := hm
  by_cases hpi : p = id
  · subst hpi
    rw [if_pos rfl] at hs ⊢; exact hf k hk hs
  · rw [if_neg hpi] at hs ⊢; exact h p k hk hs

theorem Leafless.modifySiblings (h : t.Leafless) {f : List StepId → List StepId} {parent : Option StepId}
    (block : ∀ p, parent = some p → ∃ m, t.get? p = some m ∧ (m.step.isContainer = false → f m.children = [])) :
    (t.modifySiblings parent f).Leafless := by
  cases parent with
  | none => exact h
  | some p =>
    obtain ⟨m, hm, hs⟩ := block p rfl
    rw [modifySiblings_some (contains_of_get? hm)]
    refine h.modifyNode p _ fun n hn => ?_
    rw [hm] at hn; cases hn; exact hs

/-! ## Hanging -/

theorem Hung.mono (h : t.Hung tops x)
    (kept : ∀ p m, t.get? p = some m → ∃ m', t'.get? p = some m' ∧ ∀ c ∈ m.children, c ∈ m'.children)
    (sub : ∀ y ∈ tops, t'.Hung tops' y) : t'.Hung tops' x := by
  induction h with
  | top h => exact sub _ h
  | under h hm _ ih =>
    obtain ⟨m', h', hc⟩ := kept _ _ h
    exact .under h' (hc _ hm) ih

theorem Hung.weaken (h : t.Hung tops x) (sub : ∀ y ∈ tops, y ∈ tops') : t.Hung tops' x :=
  h.mono (fun _ m hm => ⟨m, hm, fun _ hc => hc⟩) fun y hy => .top (sub y hy)

theorem Hung.append (h : t.Hung (tops ++ tops') x) : t.Hung tops x ∨ t.Hung tops' x := by
  induction h with
  | top h => exact (List.mem_append.1 h).imp .top .top
  | under h hm _ ih => exact ih.imp (.under h hm) (.under h hm)

namespace Loose

/-! ## What is mentioned -/

theorem nodup (hl : Loose t ls) : (ls ++ (t.roots ++ t.childNames)).Nodup :=
  hl.mentioned.nodup_iff.2 hl.nodupKeys

theorem mem_keys_of_loose (hl : Loose t ls) (h : id ∈ ls) : id ∈ t.keys :=
  hl.mentioned.subset (List.mem_append_left _ h)

theorem mem_keys_of_root (hl : Loose t ls) (h : id ∈ t.roots) : id ∈ t.keys :=
  hl.mentioned.subset (List.mem_append_right _ (List.mem_append_left _ h))

theorem mem_keys_of_child (hl : Loose t ls) (h : t.get? p = some m) (hm : id ∈ m.children) : id ∈ t.keys :=
  hl.mentioned.subset (List.mem_append_right _ (List.mem_append_right _
    ((mem_childNames hl.nodupKeys).2 ⟨p, m, h, hm⟩)))

/-- A name in the table is loose, or at the top, or a child of its parent. -/
theorem place_cases (hl : Loose t ls) (h : id ∈ t.keys) :
    id ∈ ls ∨ (id ∈ t.roots ∧ t.parentOf id = none) ∨
      ∃ p m, t.get? p = some m ∧ id ∈ m.children ∧ t.parentOf id = some p := by
  rcases List.mem_append.1 (hl.mentioned.symm.subset h) with h | h
  · exact .inl h
  · rcases List.mem_append.1 h with h | h
    · exact .inr (.inl ⟨h, hl.root id h⟩)
    · obtain ⟨p, m, hp, hm⟩ := (mem_childNames hl.nodupKeys).1 h
      exact .inr (.inr ⟨p, m, hp, hm, hl.child p m hp id hm⟩)

theorem not_mem_of_loose (hl : Loose t (id :: ls)) : id ∉ ls ++ t.roots := by
  have := hl.nodup
  rw [List.cons_append, List.nodup_cons, ← List.append_assoc] at this
  exact fun h => this.1 (List.mem_append_left _ h)

theorem not_child_of_loose (hl : Loose t (id :: ls)) (h : t.get? p = some m) : id ∉ m.children := by
  have := hl.nodup
  rw [List.cons_append, List.nodup_cons, ← List.append_assoc] at this
  exact fun hm => this.1 (List.mem_append_right _ ((mem_childNames hl.nodupKeys).2 ⟨p, m, h, hm⟩))

theorem nodup_roots (hl : Loose t ls) : t.roots.Nodup :=
  (List.nodup_append.1 (List.nodup_append.1 hl.nodup).2.1).1

theorem nodup_children (hl : Loose t ls) (h : t.get? p = some m) : m.children.Nodup := by
  obtain ⟨rest, hp, -, -⟩ := childNames_split hl.nodupKeys h
  have := (List.nodup_append.1 (List.nodup_append.1 hl.nodup).2.1).2.1
  exact (List.nodup_append.1 (hp.nodup_iff.1 this)).1

/-- A loose name hangs nowhere else, and neither does anything hang elsewhere through it. -/
theorem ne_of_hung (hl : Loose t (id :: ls)) (sub : ∀ y ∈ tops, y ∈ ls ++ t.roots) (h : t.Hung tops x) :
    x ≠ id := by
  cases h with
  | top h => rintro rfl; exact hl.not_mem_of_loose (sub _ h)
  | under h hm _ => rintro rfl; exact hl.not_child_of_loose h hm

/-! ## A node comes and goes -/

/-- A new node without children, of a step that has its key for its name, is loose. -/
theorem addNode (hl : Loose t ls) (h : id ∉ t.keys) (hc : n.children = [])
    (hs : n.step.id = id ∧ n.step.children = []) :
    Loose (t.addNode id n) (id :: ls) := by
  have kept : ∀ p m, t.get? p = some m → (t.addNode id n).get? p = some m := fun p m hp => by
    rw [get?_addNode_ne h (by rintro rfl; exact h (mem_keys_of_get? hp)), hp]
  have back : ∀ p m, (t.addNode id n).get? p = some m → p = id ∧ m = n ∨ t.get? p = some m := by
    intro p m hp
    rw [get?_addNode h] at hp
    by_cases hpi : p = id
    · rw [if_pos hpi] at hp; cases hp; exact .inl ⟨hpi, rfl⟩
    · rw [if_neg hpi] at hp; exact .inr hp
  have parent : ∀ y ∈ t.keys, (t.addNode id n).parentOf y = t.parentOf y := fun y hy => by
    unfold StepTree.parentOf
    rw [get?_addNode_ne h (by rintro rfl; exact h hy)]
  constructor
  case nodupKeys =>
    rw [keys_addNode, List.nodup_append]
    refine ⟨hl.nodupKeys, List.nodup_singleton _, ?_⟩
    rintro a ha b hb rfl
    rw [List.mem_singleton] at hb; exact h (hb ▸ ha)
  case mentioned =>
    rw [mentions_eq, childNames_addNode, hc, List.append_nil, keys_addNode, roots_addNode]
    exact (hl.mentioned.cons id).trans (List.perm_append_singleton _ _).symm
  case root =>
    intro y hy
    rw [parent y (hl.mem_keys_of_root hy)]; exact hl.root y hy
  case child =>
    intro p m hp y hy
    rcases back p m hp with ⟨-, rfl⟩ | hp
    · rw [hc] at hy; cases hy
    · rw [parent y (hl.mem_keys_of_child hp hy)]; exact hl.child p m hp y hy
  case hung =>
    intro y hy
    rw [keys_addNode, List.mem_append, List.mem_singleton] at hy
    rcases hy with hy | rfl
    · refine (hl.hung y hy).mono (fun p m hp => ⟨m, kept p m hp, fun _ hc => hc⟩) fun z hz => .top ?_
      exact List.mem_cons_of_mem _ hz
    · exact .top (List.mem_cons_self ..)
  case payload =>
    intro p m hp
    rcases back p m hp with ⟨rfl, rfl⟩ | hp
    · exact hs
    · exact hl.payload p m hp

/-- What hangs elsewhere still hangs there when a loose node is dropped. -/
theorem hung_dropNode (hl : Loose t (id :: ls)) (sub : ∀ y ∈ tops, y ∈ ls ++ t.roots) (h : t.Hung tops x) :
    (t.dropNode id).Hung tops x := by
  induction h with
  | top h => exact .top h
  | under h hm up ih => exact .under (by rw [get?_dropNode_ne (hl.ne_of_hung sub up)]; exact h) hm ih

/-- When a loose node is dropped its children become loose. -/
theorem dropNode (hl : Loose t (id :: ls)) (h : t.get? id = some n) :
    Loose (t.dropNode id) (n.children ++ ls) := by
  obtain ⟨rest, hp, hd, -⟩ := childNames_split hl.nodupKeys h
  have parent : ∀ y, y ≠ id → (t.dropNode id).parentOf y = t.parentOf y := fun y hy => by
    unfold StepTree.parentOf; rw [get?_dropNode_ne hy]
  constructor
  case nodupKeys =>
    rw [keys_dropNode]; exact hl.nodupKeys.filter _
  case mentioned =>
    have hk : t.keys.Perm (id :: (t.dropNode id).keys) := by
      rw [keys_dropNode]; exact perm_cons_filter_ne hl.nodupKeys (mem_keys_of_get? h)
    have hm : (id :: (n.children ++ ls ++ (t.roots ++ rest))).Perm (id :: (t.dropNode id).keys) := by
      refine List.Perm.trans (List.Perm.cons id ?_) (hl.mentioned.trans hk)
      rw [mentions_eq, List.append_assoc]
      refine ((List.perm_append_comm_assoc _ _ _).trans ?_)
      refine List.Perm.append_left ls ?_
      exact (List.perm_append_comm_assoc _ _ _).trans (hp.symm.append_left _)
    rw [mentions_eq, roots_dropNode]
    exact ((hd.append_left _).append_left _).trans ((List.perm_cons id).1 hm)
  case root =>
    intro y hy
    rw [parent y (by rintro rfl; exact hl.not_mem_of_loose (List.mem_append_right _ hy))]
    exact hl.root y hy
  case child =>
    intro p m hm y hy
    have hm' := (get?_dropNode_eq_some hm).2
    rw [parent y (by rintro rfl; exact hl.not_child_of_loose hm' hy)]
    exact hl.child p m hm' y hy
  case hung =>
    intro y hy
    rw [mem_keys, contains_iff] at hy
    obtain ⟨m, hm⟩ := hy
    obtain ⟨hne, hm⟩ := get?_dropNode_eq_some hm
    -- a name that hung from the dropped one now hangs from one of its children
    have key : ∀ z, t.Hung (id :: ls ++ t.roots) z → z ≠ id →
        (t.dropNode id).Hung (n.children ++ ls ++ t.roots) z := by
      intro z hz
      induction hz with
      | top hz =>
        intro hne
        refine .top ?_
        rcases List.mem_cons.1 hz with rfl | hz
        · exact absurd rfl hne
        · rw [List.append_assoc]; exact List.mem_append_right _ hz
      | @under z q k hq hk _ ih =>
        intro _
        by_cases hqi : q = id
        · subst hqi
          rw [h] at hq; cases hq
          exact .top (List.mem_append_left _ (List.mem_append_left _ hk))
        · exact .under (by rw [get?_dropNode_ne hqi]; exact hq) hk (ih hqi)
    exact key y (hl.hung y (mem_keys_of_get? hm)) hne
  case payload => exact fun y m hm => hl.payload y m (get?_dropNode_eq_some hm).2

/-! ## A node changes -/

/-- A node may change its step for another one of its name, and while it is loose its parent. -/
theorem relabel (hl : Loose t ls) (id : StepId) (f : Node → Node) (hc : ∀ n, (f n).children = n.children)
    (hs : ∀ n, t.get? id = some n → (f n).step.id = id ∧ (f n).step.children = [])
    (hp : id ∈ ls ∨ ∀ n, (f n).parent = n.parent) : Loose (t.modifyNode id f) ls := by
  have kept : ∀ p m, t.get? p = some m →
      (t.modifyNode id f).get? p = some (if p = id then f m else m) := fun p m hm => by
    rw [get?_modifyNode, hm]; rfl
  have back : ∀ p m, (t.modifyNode id f).get? p = some m →
      ∃ k, t.get? p = some k ∧ m.children = k.children := by
    intro p m hm
    rw [get?_modifyNode, Option.map_eq_some_iff] at hm
    obtain ⟨k, hk, rfl⟩ := hm
    refine ⟨k, hk, ?_⟩
    by_cases hpi : p = id
    · rw [if_pos hpi, hc]
    · rw [if_neg hpi]
  have parent : ∀ y, y ∉ ls → (t.modifyNode id f).parentOf y = t.parentOf y := by
    intro y hy
    unfold StepTree.parentOf
    rw [get?_modifyNode]
    rcases t.get? y with _ | m
    · rfl
    · by_cases hyi : y = id
      · subst hyi
        simp [hp.resolve_left hy m]
      · simp [hyi]
  have mentions : (t.modifyNode id f).mentions.Perm t.mentions := by
    rw [mentions_eq, mentions_eq, roots_modifyNode]
    refine List.Perm.append_left _ ?_
    rcases hg : t.get? id with _ | n
    · have : (t.modifyNode id f).nodes = t.nodes := by
        unfold modifyNode
        conv_rhs => rw [← List.map_id t.nodes]
        refine List.map_congr_left fun e he => if_neg ?_
        rintro rfl
        rw [get?_of_mem_nodes hl.nodupKeys he] at hg; cases hg
      unfold childNames; rw [this]
    · obtain ⟨rest, hp, -, hm⟩ := childNames_split hl.nodupKeys hg
      have := hm f
      rw [hc] at this
      exact this.trans hp.symm
  -- the one node whose parent may change is loose, so no list mentions it
  have notLoose : ∀ y ∈ t.roots ++ t.childNames, y ∉ ls := fun y hy hls =>
    (List.nodup_append.1 hl.nodup).2.2 y hls y hy rfl
  constructor
  case nodupKeys =>
    rw [keys_modifyNode]; exact hl.nodupKeys
  case mentioned =>
    rw [keys_modifyNode]; exact (mentions.append_left _).trans hl.mentioned
  case root =>
    intro y hy
    rw [parent y (notLoose y (List.mem_append_left _ hy))]; exact hl.root y hy
  case child =>
    intro p m hm y hy
    obtain ⟨k, hk, hch⟩ := back p m hm
    rw [hch] at hy
    rw [parent y (notLoose y (List.mem_append_right _ ((mem_childNames hl.nodupKeys).2 ⟨p, k, hk, hy⟩)))]
    exact hl.child p k hk y hy
  case hung =>
    intro y hy
    rw [keys_modifyNode] at hy
    refine (hl.hung y hy).mono (fun p m hm => ⟨_, kept p m hm, fun c hc' => ?_⟩) fun z hz => .top hz
    by_cases hpi : p = id
    · rw [if_pos hpi, hc]; exact hc'
    · rw [if_neg hpi]; exact hc'
  case payload =>
    intro p m hm
    rw [get?_modifyNode, Option.map_eq_some_iff] at hm
    obtain ⟨k, hk, rfl⟩ := hm
    by_cases hpi : p = id
    · subst hpi
      rw [if_pos rfl]; exact hs k hk
    · rw [if_neg hpi]; exact hl.payload p k hk

/-! ## A list of names changes -/

variable {parent : Option StepId} {names : List StepId} {f : List StepId → List StepId} {ls' : List StepId}

/-- What hung in a tree hangs from what is loose or at the top after the children of a step have
changed, if each of them is still among them or has become loose. -/
theorem hung_mapChildren (hn : t.get? p = some n) (split : ∀ y ∈ n.children, y ∈ ls' ∨ y ∈ f n.children)
    (sub : ∀ z ∈ tops, (t.modifyNode p (Node.mapChildren f)).Hung (ls' ++ t.roots) z) (h : t.Hung tops x) :
    (t.modifyNode p (Node.mapChildren f)).Hung (ls' ++ t.roots) x := by
  induction h with
  | top h => exact sub _ h
  | @under z q m hm hz _ ih =>
    by_cases hqp : q = p
    · subst hqp
      rw [hn] at hm; cases hm
      rcases split z hz with h | h
      · exact .top (List.mem_append_left _ h)
      · exact .under (get?_modifyNode_self hn) h ih
    · exact .under (by rw [get?_modifyNode_ne hqp]; exact hm) hz ih

/-- The top names may be exchanged against loose ones, if these know of no parent. -/
theorem relist_roots (hl : Loose t ls) (perm : ls' ++ f t.roots ~ ls ++ t.roots)
    (up : ∀ y ∈ f t.roots, t.parentOf y = none) : Loose { t with roots := f t.roots } ls' := by
  constructor
  case nodupKeys => exact hl.nodupKeys
  case mentioned =>
    calc ls' ++ (f t.roots ++ t.childNames)
      _ ~ ls ++ (t.roots ++ t.childNames) := by
        simpa only [List.append_assoc] using perm.append_right t.childNames
      _ ~ t.keys := hl.mentioned
  case root => exact fun y hy => up y hy
  case child => exact hl.child
  case hung =>
    intro y hy
    exact (hl.hung y hy).mono (fun p m hm => ⟨m, hm, fun _ hc => hc⟩) fun z hz => .top (perm.symm.subset hz)
  case payload => exact hl.payload

/-- The children of a step may be exchanged against loose names, if these know their parent and the
step hangs from what is not loose or stays loose. -/
theorem relist_children (hl : Loose t ls) (hn : t.get? p = some n) (perm : ls' ++ f n.children ~ ls ++ n.children)
    (up : ∀ y ∈ f n.children, t.parentOf y = some p) (hang : t.Hung (ls' ++ t.roots) p) :
    Loose (t.modifyNode p (Node.mapChildren f)) ls' := by
  have hp : (t.modifyNode p (Node.mapChildren f)).get? p = some (n.mapChildren f) := get?_modifyNode_self hn
  have other : ∀ q, q ≠ p → (t.modifyNode p (Node.mapChildren f)).get? q = t.get? q := fun q hq =>
    get?_modifyNode_ne hq
  have split : ∀ y, y ∈ ls ∨ y ∈ n.children → y ∈ ls' ∨ y ∈ f n.children := fun y hy =>
    List.mem_append.1 (perm.symm.subset (List.mem_append.2 hy))
  have parent : ∀ y, (t.modifyNode p (Node.mapChildren f)).parentOf y = t.parentOf y := by
    intro y
    by_cases hy : y = p
    · rw [hy, parentOf_of_get? hp, parentOf_of_get? hn]; rfl
    · unfold StepTree.parentOf; rw [other y hy]
  constructor
  case nodupKeys =>
    rw [keys_modifyNode]; exact hl.nodupKeys
  case mentioned =>
    obtain ⟨rest, hcn, -, hm⟩ := childNames_split hl.nodupKeys hn
    rw [keys_modifyNode]
    calc ls' ++ (t.roots ++ (t.modifyNode p (Node.mapChildren f)).childNames)
      _ ~ ls' ++ (t.roots ++ (f n.children ++ rest)) := ((hm _).append_left _).append_left _
      _ ~ ls' ++ (f n.children ++ (t.roots ++ rest)) := (List.perm_append_comm_assoc _ _ _).append_left _
      _ ~ ls ++ (n.children ++ (t.roots ++ rest)) := by
        simpa only [List.append_assoc] using perm.append_right (t.roots ++ rest)
      _ ~ ls ++ (t.roots ++ (n.children ++ rest)) := (List.perm_append_comm_assoc _ _ _).append_left _
      _ ~ ls ++ (t.roots ++ t.childNames) := (hcn.symm.append_left _).append_left _
      _ ~ t.keys := hl.mentioned
  case root =>
    intro y hy; rw [parent]; exact hl.root y hy
  case child =>
    intro q m hm y hy
    rw [parent]
    by_cases hq : q = p
    · subst hq
      rw [hp] at hm; cases hm
      exact up y hy
    · rw [other q hq] at hm
      exact hl.child q m hm y hy
  case hung =>
    have hangs := hung_mapChildren hn (fun y hy => split y (.inr hy)) (fun z hz => .top hz) hang
    intro y hy
    rw [keys_modifyNode] at hy
    refine hung_mapChildren hn (fun y hy => split y (.inr hy)) (fun z hz => ?_) (hl.hung y hy)
    rcases List.mem_append.1 hz with hz | hz
    · rcases split z (.inl hz) with h | h
      · exact .top (List.mem_append_left _ h)
      · exact .under hp h hangs
    · exact .top (List.mem_append_right _ hz)
  case payload =>
    intro q m hm
    by_cases hq : q = p
    · subst hq
      rw [hp] at hm; cases hm
      exact hl.payload q n hn
    · rw [other q hq] at hm
      exact hl.payload q m hm

/-- A loose name may be tied up in the list of its parent, if that hangs elsewhere. -/
theorem attach (hl : Loose t (id :: ls)) (up : t.parentOf id = parent)
    (perm : ∀ names, t.siblings parent = some names → f names ~ id :: names)
    (known : ∀ p, parent = some p → t.contains p = true)
    (hang : ∀ p, parent = some p → t.Hung (ls ++ t.roots) p) : Loose (t.modifySiblings parent f) ls := by
  cases parent with
  | none =>
    have hf := perm t.roots rfl
    refine hl.relist_roots ((hf.append_left ls).trans List.perm_middle) fun y hy => ?_
    rcases List.mem_cons.1 (hf.subset hy) with rfl | hy
    · exact up
    · exact hl.root y hy
  | some p =>
    obtain ⟨m, hm⟩ := contains_iff.1 (known p rfl)
    have hf := perm m.children (siblings_of_get? hm)
    rw [modifySiblings_some (contains_of_get? hm)]
    refine hl.relist_children hm ((hf.append_left ls).trans List.perm_middle) (fun y hy => ?_) (hang p rfl)
    rcases List.mem_cons.1 (hf.subset hy) with rfl | hy
    · exact up
    · exact hl.child p m hm y hy

/-- A name taken out of its list is loose. -/
theorem detach (hl : Loose t ls) (h : id ∈ t.keys) (hid : id ∉ ls) : Loose (t.detach id) (id :: ls) := by
  rcases hl.place_cases h with h | ⟨hr, hp⟩ | ⟨p, m, hm, hc, hp⟩
  · exact absurd h hid
  · unfold StepTree.detach
    rw [hp]
    refine hl.relist_roots ?_ fun y hy => hl.root y (List.mem_of_mem_filter hy)
    exact List.perm_middle.symm.trans ((perm_cons_filter_ne hl.nodup_roots hr).symm.append_left ls)
  · unfold StepTree.detach
    rw [hp, modifySiblings_some (contains_of_get? hm)]
    refine hl.relist_children hm ?_ (fun y hy => hl.child p m hm y (List.mem_of_mem_filter hy)) ?_
    · exact List.perm_middle.symm.trans ((perm_cons_filter_ne (hl.nodup_children hm) hc).symm.append_left ls)
    · exact (hl.hung p (mem_keys_of_get? hm)).weaken fun y hy => List.mem_cons_of_mem _ hy

/-- When a step loses its children they are loose. -/
theorem clear (hl : Loose t ls) (h : t.get? id = some n) :
    Loose (t.modifyNode id (Node.mapChildren fun _ => [])) (n.children ++ ls) := by
  refine hl.relist_children h ?_ (fun y hy => by cases hy) ?_
  · rw [List.append_nil]; exact List.perm_append_comm
  · refine (hl.hung id (mem_keys_of_get? h)).weaken fun y hy => ?_
    rw [List.append_assoc]; exact List.mem_append_right _ hy

end Loose

end StepTree

end StepTimer
