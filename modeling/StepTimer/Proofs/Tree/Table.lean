/-
The table of a step tree: what looking up, listing and counting give after a node is added, dropped
or changed. Later modules speak of trees through these lemmas and open no table.
-/
import StepTimer.Tree.Edit
import Mathlib.Data.List.Nodup
import Mathlib.Data.List.Perm.Subperm

namespace StepTimer

namespace StepTree

variable {t : StepTree} {id x p : StepId} {n m : Node}

/-- The names listed as children. -/
def childNames (t : StepTree) : List StepId := t.nodes.flatMap fun e => e.2.children

theorem mentions_eq (t : StepTree) : t.mentions = t.roots ++ t.childNames := rfl

theorem contains_iff : t.contains id = true ↔ ∃ n, t.get? id = some n :=
  Option.isSome_iff_exists

theorem contains_of_get? (h : t.get? id = some n) : t.contains id = true :=
  contains_iff.2 ⟨n, h⟩

theorem mem_keys : id ∈ t.keys ↔ t.contains id = true := by
  unfold keys contains get?
  rw [List.lookup_isSome_iff, List.mem_map]
  constructor
  · rintro ⟨e, he, rfl⟩; exact ⟨e, he, by simp⟩
  · rintro ⟨e, he, hk⟩; exact ⟨e, he, (beq_iff_eq.1 hk).symm⟩

theorem mem_keys_of_get? (h : t.get? id = some n) : id ∈ t.keys := mem_keys.2 (contains_of_get? h)

theorem get?_eq_none (h : id ∉ t.keys) : t.get? id = none := by
  rcases hg : t.get? id with _ | n
  · rfl
  · exact absurd (mem_keys_of_get? hg) h

theorem parentOf_of_get? (h : t.get? id = some n) : t.parentOf id = n.parent := by
  unfold parentOf; rw [h]; rfl

theorem get?_of_parentOf (h : t.parentOf id = some p) : ∃ n, t.get? id = some n ∧ n.parent = some p := by
  unfold parentOf at h
  rcases hg : t.get? id with _ | n
  · rw [hg] at h; cases h
  · rw [hg] at h; exact ⟨n, rfl, h⟩

theorem get?_of_mem_nodes (hk : t.keys.Nodup) (h : (id, n) ∈ t.nodes) : t.get? id = some n := by
  rcases hg : t.get? id with _ | m
  · unfold get? at hg
    rw [List.lookup_eq_none_iff] at hg
    exact absurd (hg _ h) (by simp)
  · obtain ⟨l₁, l₂, hl, -⟩ := List.lookup_eq_some_iff.1 hg
    have hm : (id, m) ∈ t.nodes := by rw [hl]; simp
    have := List.inj_on_of_nodup_map hk hm h rfl
    cases this; rfl

theorem mem_nodes_of_get? (h : t.get? id = some n) : (id, n) ∈ t.nodes := by
  obtain ⟨l₁, l₂, hl, -⟩ := List.lookup_eq_some_iff.1 h
  rw [hl]; simp

theorem mem_childNames (hk : t.keys.Nodup) :
    x ∈ t.childNames ↔ ∃ p m, t.get? p = some m ∧ x ∈ m.children := by
  unfold childNames
  rw [List.mem_flatMap]
  constructor
  · rintro ⟨⟨p, m⟩, he, hx⟩; exact ⟨p, m, get?_of_mem_nodes hk he, hx⟩
  · rintro ⟨p, m, hp, hx⟩; exact ⟨(p, m), mem_nodes_of_get? hp, hx⟩

theorem count_eq_length_keys (t : StepTree) : t.count = t.keys.length := by
  simp [count, keys]

/-! ## Adding a node -/

theorem get?_addNode (h : id ∉ t.keys) : (t.addNode id n).get? x = if x = id then some n else t.get? x := by
  unfold addNode get?
  rw [List.lookup_append]
  by_cases hx : x = id
  · subst hx
    rw [show t.nodes.lookup x = none from get?_eq_none h]
    simp
  · rw [if_neg hx]
    have : List.lookup x [(id, n)] = none := by simp [hx]
    rw [this, Option.or_none]

theorem get?_addNode_ne (h : id ∉ t.keys) (hx : x ≠ id) : (t.addNode id n).get? x = t.get? x := by
  rw [get?_addNode h, if_neg hx]

theorem get?_addNode_self (h : id ∉ t.keys) : (t.addNode id n).get? id = some n := by
  rw [get?_addNode h, if_pos rfl]

@[simp] theorem roots_addNode : (t.addNode id n).roots = t.roots := rfl

theorem keys_addNode : (t.addNode id n).keys = t.keys ++ [id] := by simp [keys, addNode]

theorem childNames_addNode : (t.addNode id n).childNames = t.childNames ++ n.children := by
  simp [childNames, addNode]

/-! ## Dropping a node -/

@[simp] theorem roots_dropNode : (t.dropNode id).roots = t.roots := rfl

theorem keys_dropNode : (t.dropNode id).keys = t.keys.filter fun x => x ≠ id := by
  unfold keys dropNode
  rw [List.filter_map]; rfl

theorem lookup_filter_ne (hx : x ≠ id) (l : List (StepId × Node)) :
    (l.filter fun e => e.1 ≠ id).lookup x = l.lookup x := by
  induction l with
  | nil => rfl
  | cons e l ih =>
    obtain ⟨k, n⟩ := e
    by_cases hk : k = id
    · have hxk : (x == k) = false := by rw [hk]; simpa using hx
      rw [List.filter_cons_of_neg (by simpa using hk), ih, List.lookup_cons, hxk]
    · rw [List.filter_cons_of_pos (by simpa using hk), List.lookup_cons, List.lookup_cons, ih]

theorem get?_dropNode_ne (hx : x ≠ id) : (t.dropNode id).get? x = t.get? x := lookup_filter_ne hx t.nodes

theorem not_mem_keys_dropNode : id ∉ (t.dropNode id).keys := by
  rw [keys_dropNode]; simp

theorem get?_dropNode_self : (t.dropNode id).get? id = none := get?_eq_none not_mem_keys_dropNode

theorem get?_dropNode_eq_some (h : (t.dropNode id).get? x = some n) : x ≠ id ∧ t.get? x = some n := by
  have hx : x ≠ id := by
    rintro rfl; rw [get?_dropNode_self] at h; cases h
  exact ⟨hx, by rw [← h, get?_dropNode_ne hx]⟩

theorem count_dropNode_lt (h : id ∈ t.keys) : (t.dropNode id).count < t.count := by
  rw [count_eq_length_keys, count_eq_length_keys, keys_dropNode]
  exact List.length_filter_lt_length_iff_exists.2 ⟨id, h, by simp⟩

/-! ## Changing a node -/

@[simp] theorem roots_modifyNode {f : Node → Node} : (t.modifyNode id f).roots = t.roots := rfl

@[simp] theorem count_modifyNode {f : Node → Node} : (t.modifyNode id f).count = t.count := by
  simp [count, modifyNode]

@[simp] theorem keys_modifyNode {f : Node → Node} : (t.modifyNode id f).keys = t.keys := by
  unfold keys modifyNode
  rw [List.map_map]
  apply List.map_congr_left
  intro e _
  by_cases he : e.1 = id <;> simp [he]

theorem lookup_map_modify (f : Node → Node) (l : List (StepId × Node)) :
    (l.map fun e => if e.1 = id then (e.1, f e.2) else e).lookup x =
      (l.lookup x).map fun n => if x = id then f n else n := by
  induction l with
  | nil => rfl
  | cons e l ih =>
    obtain ⟨k, n⟩ := e
    rw [List.map_cons]
    rcases hx : x == k with _ | _
    · by_cases hk : k = id
      · rw [if_pos hk, List.lookup_cons, List.lookup_cons, hx, ih]
      · rw [if_neg hk, List.lookup_cons, List.lookup_cons, hx, ih]
    · obtain rfl : x = k := by simpa using hx
      by_cases hk : x = id
      · rw [if_pos hk, List.lookup_cons_self, List.lookup_cons_self, Option.map_some, if_pos hk]
      · rw [if_neg hk, List.lookup_cons_self, List.lookup_cons_self, Option.map_some, if_neg hk]

theorem get?_modifyNode {f : Node → Node} :
    (t.modifyNode id f).get? x = (t.get? x).map fun n => if x = id then f n else n :=
  lookup_map_modify f t.nodes

theorem get?_modifyNode_ne {f : Node → Node} (hx : x ≠ id) : (t.modifyNode id f).get? x = t.get? x := by
  rw [get?_modifyNode]; simp [hx]

theorem get?_modifyNode_self {f : Node → Node} (h : t.get? id = some n) :
    (t.modifyNode id f).get? id = some (f n) := by
  rw [get?_modifyNode, h]; simp

theorem contains_modifyNode {f : Node → Node} : (t.modifyNode id f).contains x = t.contains x := by
  unfold contains; rw [get?_modifyNode, Option.isSome_map]

/-- The nodes of another name and those of the same name may be changed in any order, the latter if
the changes commute. -/
theorem modifyNode_comm {a b : StepId} {f g : Node → Node} (h : a = b → ∀ n, f (g n) = g (f n)) :
    (t.modifyNode a f).modifyNode b g = (t.modifyNode b g).modifyNode a f := by
  unfold modifyNode
  simp only [List.map_map, StepTree.mk.injEq, and_true]
  apply List.map_congr_left
  rintro ⟨k, n⟩ _
  by_cases ha : k = a
  · by_cases hb : k = b
    · have hf := h (ha.symm.trans hb) n
      simp only [Function.comp_apply, if_pos ha, if_pos hb, hf]
    · simp only [Function.comp_apply, if_pos ha, if_neg hb]
  · by_cases hb : k = b
    · simp only [Function.comp_apply, if_neg ha, if_pos hb]
    · simp only [Function.comp_apply, if_neg ha, if_neg hb]

/-- The children of one node apart from those of all others: what dropping or changing the node does
to the listed names. -/
theorem childNames_split (hk : t.keys.Nodup) (h : t.get? id = some n) :
    ∃ rest, t.childNames.Perm (n.children ++ rest) ∧ (t.dropNode id).childNames.Perm rest ∧
      ∀ f, (t.modifyNode id f).childNames.Perm ((f n).children ++ rest) := by
  obtain ⟨A, B, hl, hA⟩ := List.lookup_eq_some_iff.1 h
  have hA' : ∀ e ∈ A, e.1 ≠ id := fun e he heq => by
    have := hA e he
    rw [heq] at this; simp at this
  have hB' : ∀ e ∈ B, e.1 ≠ id := by
    intro e he heq
    unfold keys at hk
    rw [hl, List.map_append, List.map_cons, List.nodup_append] at hk
    exact (List.nodup_cons.1 hk.2.1).1 (List.mem_map.2 ⟨e, he, heq⟩)
  have hfA : A.filter (fun e => e.1 ≠ id) = A := List.filter_eq_self.2 fun e he => by simpa using hA' e he
  have hfB : B.filter (fun e => e.1 ≠ id) = B := List.filter_eq_self.2 fun e he => by simpa using hB' e he
  refine ⟨A.flatMap (fun e => e.2.children) ++ B.flatMap (fun e => e.2.children), ?_, ?_, ?_⟩
  · unfold childNames
    rw [hl, List.flatMap_append, List.flatMap_cons]
    exact List.perm_append_comm_assoc _ _ _
  · unfold childNames dropNode
    rw [hl]
    simp only [List.filter_append]
    rw [hfA, List.filter_cons_of_neg (by simp), hfB, List.flatMap_append]
  · intro f
    have hmod : ∀ C : List (StepId × Node), (∀ e ∈ C, e.1 ≠ id) →
        C.map (fun e => if e.1 = id then (e.1, f e.2) else e) = C := by
      intro C hC
      conv_rhs => rw [← List.map_id C]
      exact List.map_congr_left fun e he => by simp [hC e he]
    unfold childNames modifyNode
    rw [hl]
    rw [List.map_append, List.map_cons, hmod A hA', hmod B hB', if_pos rfl, List.flatMap_append, List.flatMap_cons]
    exact List.perm_append_comm_assoc _ _ _

end StepTree

end StepTimer
