/-
Requests that put a step somewhere: to move it or to insert a new one. A request that cannot be carried out is refused
with its reason and changes nothing but the source of names, and one that is carried out puts the step at the target.
There is one exception: a step that is moved to the inside of a step that cannot hold children stays where it is, and
yet the request is answered as one that was carried out, while an insertion there is refused.
-/
import StepTimer.Proofs.App.Registry
import StepTimer.Proofs.Tree.Copies

namespace StepTimer

namespace DropTarget

variable {target : DropTarget} {steps : List Step} {x : StepId}

/-- Whether a drop target is inside of a step that cannot hold children. -/
def InLeaf (target : DropTarget) (steps : List Step) : Prop :=
  ∃ y s, target = relative y .inside ∧ Step.find? y steps = some s ∧ s.isContainer = false

/-- A target has a place, or the step that it names is missing, or it is inside of one that cannot hold children. -/
theorem fits_or (target : DropTarget) (steps : List Step) : target.Fits steps ∨
    (∃ y position, target = relative y position ∧ Step.find? y steps = none) ∨ target.InLeaf steps := by
  cases target with
  | rootStart => exact .inl fun _ _ h => by cases h
  | rootEnd => exact .inl fun _ _ h => by cases h
  | relative y position =>
    rcases hs : Step.find? y steps with _ | s
    · exact .inr (.inl ⟨y, position, rfl, hs⟩)
    · by_cases holds : position = .inside → s.isContainer = true
      · refine .inl ?_
        rintro _ _ ⟨⟩
        exact ⟨s, hs, holds⟩
      · push Not at holds
        obtain ⟨rfl, leaf⟩ := holds
        exact .inr (.inr ⟨y, s, rfl, hs, Bool.eq_false_iff.2 leaf⟩)

theorem InLeaf.not_fits (h : target.InLeaf steps) : ¬ target.Fits steps := by
  obtain ⟨y, s, rfl, hs, leaf⟩ := h
  intro fits
  obtain ⟨_, hs', block⟩ := fits y .inside rfl
  rw [hs] at hs'
  cases hs'
  rw [block rfl] at leaf
  cases leaf

/-- No step sits inside of one that cannot hold children. -/
theorem InLeaf.not_seats (h : target.InLeaf steps) (x : StepId) : ¬ target.Seats x steps := by
  obtain ⟨y, s, rfl, hs, leaf⟩ := h
  rintro ⟨_, rest, hs', children⟩
  rw [hs] at hs'
  cases hs'
  cases s with
  | leaf => exact List.append_ne_nil_of_right_ne_nil rest (List.cons_ne_nil x []) children.symm
  | block => cases leaf

end DropTarget

namespace App

variable {a : App} {id : TimerId} {t u : Timer} {tree : StepTree} {step x : StepId} {sub : Step} {target : DropTarget}
  {now : Instant} {edit : TreeEdit} {e : AppError} {action : String}

/-- A request is refused for a reason, and has used up at most some names. -/
def Refused (a : App) (e : AppError) (r : Outcome Timer) : Prop :=
  r.1 = .error e ∧ r.2 = { a with ids := r.2.ids }

/-- A timer has got other steps, the action is noted, and the timers are stored. -/
def Resteps (a : App) (t : Timer) (action : String) (now : Instant) (steps : List Step) (r : Outcome Timer) : Prop :=
  ∃ ids, r = (({ a with ids := ids }.setTimer { t with steps := steps }).record action now).stored
    { t with steps := steps }

/-! ## Edits of the steps -/

theorem Resteps.timer? {r : Outcome Timer} {steps : List Step} (h : a.Resteps t action now steps r)
    (found : a.timer? id = some t) : r.2.timer? id = some { t with steps := steps } := by
  obtain ⟨ids, rfl⟩ := h
  obtain rfl := id_of_timer? found
  rw [App.timer?, timers_stored]
  refine (find?_modifyFirst rfl).trans ?_
  rw [if_pos rfl, show a.timers.find? _ = some t from found, Option.map_some]

theorem Resteps.ok {r : Outcome Timer} {steps : List Step} (h : a.Resteps t action now steps r) (hr : r.1 = .ok u) :
    u = { t with steps := steps } := by
  obtain ⟨ids, rfl⟩ := h
  rw [stored_eq] at hr
  generalize App.persist _ = saved at hr
  rcases saved with ⟨_ | _, b⟩
  · cases hr
  · cases hr; rfl

theorem editSteps_of_error (found : a.timer? id = some t) (unlocked : t.locked = false)
    (h : edit (StepTree.ofSteps a.ids t.steps).2 (StepTree.ofSteps a.ids t.steps).1 = .error e) :
    a.Refused e (a.editSteps id action now edit) := by
  unfold editSteps Refused
  rw [found]
  simp only [if_neg (ne_true_of_eq_false unlocked), h, and_self]

theorem editSteps_of_ok {ids : IdSource} (found : a.timer? id = some t) (unlocked : t.locked = false)
    (h : edit (StepTree.ofSteps a.ids t.steps).2 (StepTree.ofSteps a.ids t.steps).1 = .ok (tree, ids)) :
    a.Resteps t action now tree.toSteps (a.editSteps id action now edit) := by
  unfold editSteps
  rw [found]
  simp only [if_neg (ne_true_of_eq_false unlocked), h]
  exact ⟨ids, rfl⟩

/-- An edit that is answered as carried out is one of an unlocked timer of the registry, and its steps are answered. -/
theorem editSteps_ok (h : (a.editSteps id action now edit).1 = .ok u) :
    ∃ t tree ids, a.timer? id = some t ∧ t.locked = false ∧
      edit (StepTree.ofSteps a.ids t.steps).2 (StepTree.ofSteps a.ids t.steps).1 = .ok (tree, ids) ∧
        u = { t with steps := tree.toSteps } := by
  rcases found : a.timer? id with _ | t
  · unfold editSteps at h
    rw [found] at h
    cases h
  · by_cases locked : t.locked = true
    · unfold editSteps at h
      rw [found] at h
      simp only [if_pos locked] at h
      cases h
    · have unlocked : t.locked = false := Bool.eq_false_iff.2 locked
      rcases hedit : edit (StepTree.ofSteps a.ids t.steps).2 (StepTree.ofSteps a.ids t.steps).1 with e | ⟨tree, ids⟩
      · rw [(editSteps_of_error found unlocked hedit).1] at h
        cases h
      · exact ⟨t, tree, ids, rfl, unlocked, hedit, (editSteps_of_ok found unlocked hedit).ok h⟩

/-! ## What is required -/

theorem requireStep_of_found (h : tree.find? x = some sub) : requireStep tree x = .ok () :=
  if_pos (StepTree.mem_keys.1 (StepTree.mem_keys_of_build h))

theorem requireStep_of_missing (hw : tree.WF) (h : tree.find? x = none) :
    requireStep tree x = .error (.stepNotFound x) :=
  if_neg fun hc => hw.find?_eq_none_iff.1 h (StepTree.mem_keys.2 hc)

theorem requireTarget_of_found (h : ∀ y position, target = .relative y position → ∃ s, tree.find? y = some s) :
    requireTarget tree target = .ok () := by
  cases target with
  | rootStart => rfl
  | rootEnd => rfl
  | relative y position =>
    obtain ⟨s, hs⟩ := h y position rfl
    exact requireStep_of_found hs

theorem requireTarget_of_missing (hw : tree.WF) (h : tree.find? x = none) (position : Position) :
    requireTarget tree (.relative x position) = .error (.stepNotFound x) := requireStep_of_missing hw h

/-! ## The move -/

/-- The edit of a tree that a request to move a step makes. -/
def moving (step : StepId) (target : DropTarget) : TreeEdit := fun ids tree => do
  requireStep tree step
  requireTarget tree target
  if tree.targetsSelf step target then .error .invalidPlacement else .ok (tree.moveTo step target, ids)

theorem moveStep_eq (a : App) (id : TimerId) (step : StepId) (target : DropTarget) (now : Instant) :
    a.moveStep id step target now = a.editSteps id "move step" now (moving step target) := rfl

theorem moving_noStep (hw : tree.WF) (missing : tree.find? step = none) (ids : IdSource) :
    moving step target ids tree = .error (.stepNotFound step) := by
  unfold moving
  rw [requireStep_of_missing hw missing]
  rfl

theorem moving_noTarget (hw : tree.WF) (found : tree.find? step = some sub) (missing : tree.find? x = none)
    (position : Position) (ids : IdSource) :
    moving step (.relative x position) ids tree = .error (.stepNotFound x) := by
  unfold moving
  rw [requireStep_of_found found, requireTarget_of_missing hw missing]
  rfl

theorem moving_inStep (hw : tree.WF) (found : tree.find? step = some sub) (inside : target.IsIn sub) (ids : IdSource) :
    moving step target ids tree = .error .invalidPlacement := by
  -- what is in a step of the tree is in the tree, so it is not the target that is missing
  have there : requireTarget tree target = .ok () := by
    refine requireTarget_of_found fun y position hy => ?_
    obtain ⟨_, _, rfl, hmem⟩ := inside
    cases hy
    have known := Step.subset_of_find? hw.nodup_toSteps (hw.find?_toSteps found) hmem
    exact Option.ne_none_iff_exists'.1 fun h => hw.find?_eq_none_iff.1 h (hw.mem_idsOf_toSteps.1 known)
  unfold moving
  rw [requireStep_of_found found, there]
  exact if_pos ((hw.targetsSelf_iff found).2 inside)

/-- A move to a target that is there and not in the step is never refused. -/
theorem moving_out (hw : tree.WF) (found : tree.find? step = some sub) (out : ¬ target.IsIn sub)
    (there : ∀ y position, target = .relative y position → ∃ s, tree.find? y = some s) (ids : IdSource) :
    moving step target ids tree = .ok (tree.moveTo step target, ids) := by
  unfold moving
  rw [requireStep_of_found found, requireTarget_of_found there]
  exact if_neg fun h => out ((hw.targetsSelf_iff found).1 h)

theorem moving_place (hw : tree.WF) (found : tree.find? step = some sub) (out : ¬ target.IsIn sub)
    (place : tree.HasPlace target) (ids : IdSource) :
    moving step target ids tree = .ok (tree.moveTo step target, ids) := by
  refine moving_out hw found out (fun y position hy => ?_) ids
  obtain ⟨s, hs, -⟩ := hw.hasPlace_iff.1 place y position hy
  exact ⟨s, by rw [hw.find?_eq, hs]⟩

/-- Inside of a step that cannot hold children the tree stays as it is, and that is not told from a move. -/
theorem moving_inLeaf (hw : tree.WF) (found : tree.find? step = some sub) (out : ¬ target.IsIn sub)
    (leaf : target.InLeaf tree.toSteps) (ids : IdSource) :
    tree.moveTo step target = tree ∧ moving step target ids tree = .ok (tree, ids) := by
  have same : tree.moveTo step target = tree :=
    StepTree.moveTo_refused hw (.inr (.inr fun place => leaf.not_fits (hw.hasPlace_iff.1 place)))
  refine ⟨same, ?_⟩
  rw [moving_out hw found out (fun y position hy => ?_) ids, same]
  obtain ⟨_, s, rfl, hs, -⟩ := leaf
  cases hy
  exact ⟨s, by rw [hw.find?_eq, hs]⟩

/-- The moves that are not refused. -/
theorem moving_ok {ids : IdSource} {r : StepTree × IdSource} (hw : tree.WF) (h : moving step target ids tree = .ok r) :
    ∃ sub, tree.find? step = some sub ∧ ¬ target.IsIn sub ∧
      (tree.HasPlace target ∧ r = (tree.moveTo step target, ids) ∨ target.InLeaf tree.toSteps ∧ r = (tree, ids)) := by
  rcases found : tree.find? step with _ | sub
  · rw [moving_noStep hw found] at h; cases h
  refine ⟨sub, rfl, ?_⟩
  by_cases inside : target.IsIn sub
  · rw [moving_inStep hw found inside] at h; cases h
  refine ⟨inside, ?_⟩
  rcases target.fits_or tree.toSteps with fits | ⟨y, position, rfl, missing⟩ | leaf
  · have place := hw.hasPlace_iff.2 fits
    rw [moving_place hw found inside place] at h
    cases h
    exact .inl ⟨place, rfl⟩
  · rw [← hw.find?_eq] at missing
    rw [moving_noTarget hw found missing] at h
    cases h
  · rw [(moving_inLeaf hw found inside leaf ids).2] at h
    cases h
    exact .inr ⟨leaf, rfl⟩

/-! ## The insertion -/

/-- The edit of a tree that a request to insert a step makes. -/
def inserting (target : DropTarget) (kind : StepKind) : TreeEdit := fun ids tree => do
  requireTarget tree target
  let (step, ids) := (kind.named "").withFreshIds ids
  let (edited, ids) := tree.insertAt ids target step
  if edited.count = tree.count then .error .invalidPlacement else .ok (edited, ids)

theorem insertStep_eq (a : App) (id : TimerId) (target : DropTarget) (kind : StepKind) (now : Instant) :
    a.insertStep id target kind now = a.editSteps id "insert step" now (inserting target kind) := rfl

theorem inserting_noTarget (hw : tree.WF) (missing : tree.find? x = none) (position : Position) (kind : StepKind)
    (ids : IdSource) : inserting (.relative x position) kind ids tree = .error (.stepNotFound x) := by
  unfold inserting
  rw [requireTarget_of_missing hw missing]
  rfl

/-- The target is there, so what tells the refusal is that there are as many steps as before. -/
theorem inserting_inLeaf (hw : tree.WF) (leaf : target.InLeaf tree.toSteps) (kind : StepKind) (ids : IdSource) :
    inserting target kind ids tree = .error .invalidPlacement := by
  have noPlace : ¬ tree.HasPlace target := fun place => leaf.not_fits (hw.hasPlace_iff.1 place)
  have there : requireTarget tree target = .ok () := by
    obtain ⟨y, s, rfl, hs, -⟩ := leaf
    rw [← hw.find?_eq] at hs
    exact requireStep_of_found hs
  have same : (tree.insertAt ((kind.named "").withFreshIds ids).2 target ((kind.named "").withFreshIds ids).1).1.count =
      tree.count := by rw [StepTree.insertAt_refused fun h => noPlace h.1]
  unfold inserting
  rw [there]
  exact if_pos same

theorem inserting_place (hw : tree.WF) (place : tree.HasPlace target) (kind : StepKind) {ids : IdSource}
    (fresh : ids.Fresh tree.keys) :
    let copy := (kind.named "").withFreshIds ids
    inserting target kind ids tree = .ok (tree.insertAt copy.2 target copy.1) := by
  intro copy
  have there : requireTarget tree target = .ok () := by
    refine requireTarget_of_found fun y position hy => ?_
    obtain ⟨n, hn, -⟩ := place y position hy
    exact Option.ne_none_iff_exists'.1 fun h => hw.find?_eq_none_iff.1 h (StepTree.mem_keys_of_get? hn)
  have free : tree.idsAreFree copy.1 = true := StepTree.idsAreFree_withFreshIds fresh (kind.named "")
  have more : (tree.insertAt copy.2 target copy.1).1.count ≠ tree.count := by
    obtain ⟨-, -, keys⟩ := hw.inserted copy.2 place free
    rw [StepTree.count_eq_length_keys, StepTree.count_eq_length_keys, keys, List.length_append]
    have := List.length_pos_of_mem copy.1.id_mem_ids
    omega
  unfold inserting
  rw [there]
  exact if_neg more

/-! ## The answers -/

/-- When a move is answered as carried out, the step is at the target exactly if that is not inside of a step that
cannot hold children. -/
theorem seats_of_moveStep (fresh : ∀ t, a.timer? id = some t → a.ids.Fresh (Step.idsOf t.steps))
    (hr : (a.moveStep id step target now).1 = .ok u) :
    (a.moveStep id step target now).2.timer? id = some u ∧ ∃ t, a.timer? id = some t ∧
      (target.Seats step u.steps ↔ ¬ target.InLeaf (StepTree.ofSteps a.ids t.steps).1.toSteps) := by
  rw [moveStep_eq] at hr ⊢
  obtain ⟨t, tree, ids, found, unlocked, hedit, rfl⟩ := editSteps_ok hr
  have hw := StepTree.wf_ofSteps t.steps (fresh t found)
  refine ⟨(editSteps_of_ok found unlocked hedit).timer? found, t, found, ?_⟩
  obtain ⟨sub, hs, out, ⟨place, ⟨⟩⟩ | ⟨leaf, ⟨⟩⟩⟩ := moving_ok hw hedit
  · rw [(hw.moved hs out place).1]
    exact iff_of_true (hw.seats_move hs out place) fun leaf => leaf.not_fits (hw.hasPlace_iff.1 place)
  · -- these are the steps as they were, in which the target is still inside of a step without children
    exact iff_of_false (leaf.not_seats step) fun out => out leaf

/-- A step is inserted, under new names, where the target has a place. -/
theorem insertStep_place (found : a.timer? id = some t) (unlocked : t.locked = false)
    (fresh : a.ids.Fresh (Step.idsOf t.steps)) (kind : StepKind)
    (place : (StepTree.ofSteps a.ids t.steps).1.HasPlace target) :
    let tree := (StepTree.ofSteps a.ids t.steps).1
    ∃ new : Step, new.unnamed = (kind.named "").unnamed ∧ (∀ x ∈ new.ids, tree.contains x = false) ∧
      target.Seats new.id (Step.paste target new tree.toSteps) ∧
        a.Resteps t "insert step" now (Step.paste target new tree.toSteps) (a.insertStep id target kind now) := by
  intro tree
  have hw : tree.WF := StepTree.wf_ofSteps t.steps fresh
  have source : (StepTree.ofSteps a.ids t.steps).2.Fresh tree.keys := by
    have own : a.ids.Fresh (Step.idsOf t.steps ++ []) := by rwa [List.append_nil]
    have after := StepTree.fresh_ofSteps own
    rwa [List.append_nil] at after
  have free := StepTree.idsAreFree_withFreshIds source (kind.named "")
  rw [insertStep_eq]
  refine ⟨_, Step.unnamed_withFreshIds _ _, fun x hx => StepTree.contains_of_idsAreFree free hx,
    hw.seats_insert place free, ?_⟩
  rw [← (hw.inserted _ place free).2.1]
  exact editSteps_of_ok found unlocked (inserting_place hw place kind source)

/-- A request to move a step that is answered as carried out has put the step at the target, unless that is inside of a
step that cannot hold children. A move is refused, and nothing changes, when the step or the one at the target is
missing and when the target is in the step; but when the target is inside of a step that cannot hold children the tree
stays as it is, and the request goes on as if it had moved the step. A step is inserted at the target, and also refused
inside of a step that cannot hold children. -/
theorem moveStep_answers (a : App) (id : TimerId) (step : StepId) (target : DropTarget) (now : Instant)
    (fresh : ∀ t, a.timer? id = some t → a.ids.Fresh (Step.idsOf t.steps)) :
    let r := a.moveStep id step target now
    (∀ u, r.1 = .ok u → r.2.timer? id = some u ∧ ∃ t, a.timer? id = some t ∧
      (target.Seats step u.steps ↔ ¬ target.InLeaf (StepTree.ofSteps a.ids t.steps).1.toSteps)) ∧
    ∀ t, a.timer? id = some t → t.locked = false →
      let tree := (StepTree.ofSteps a.ids t.steps).1
      (tree.find? step = none → a.Refused (.stepNotFound step) r) ∧
      (∀ sub, tree.find? step = some sub →
        (∀ y position, target = .relative y position → tree.find? y = none → a.Refused (.stepNotFound y) r) ∧
        (target.IsIn sub → a.Refused .invalidPlacement r) ∧
        (¬ target.IsIn sub → tree.HasPlace target →
          a.Resteps t "move step" now (Step.paste target sub (Step.cut step tree.toSteps)) r) ∧
        (¬ target.IsIn sub → target.InLeaf tree.toSteps →
          tree.moveTo step target = tree ∧ a.Resteps t "move step" now tree.toSteps r)) ∧
      ∀ kind, let q := a.insertStep id target kind now
        (∀ y position, target = .relative y position → tree.find? y = none → a.Refused (.stepNotFound y) q) ∧
        (target.InLeaf tree.toSteps → a.Refused .invalidPlacement q) ∧
        (tree.HasPlace target → ∃ new : Step, new.unnamed = (kind.named "").unnamed ∧
          (∀ x ∈ new.ids, tree.contains x = false) ∧ target.Seats new.id (Step.paste target new tree.toSteps) ∧
            a.Resteps t "insert step" now (Step.paste target new tree.toSteps) q) := by
  intro r
  refine ⟨fun u hr => seats_of_moveStep fresh hr, fun t found unlocked => ?_⟩
  intro tree
  have hw : tree.WF := StepTree.wf_ofSteps t.steps (fresh t found)
  refine ⟨fun missing => ?_, fun sub hs => ⟨?_, fun inside => ?_, fun out place => ?_, fun out leaf => ?_⟩,
    fun kind => ⟨?_, fun leaf => ?_, insertStep_place found unlocked (fresh t found) kind⟩⟩
  · exact editSteps_of_error found unlocked (moving_noStep hw missing _)
  · rintro y position rfl missing
    exact editSteps_of_error found unlocked (moving_noTarget hw hs missing position _)
  · exact editSteps_of_error found unlocked (moving_inStep hw hs inside _)
  · rw [← (hw.moved hs out place).1]
    exact editSteps_of_ok found unlocked (moving_place hw hs out place _)
  · obtain ⟨same, answer⟩ := moving_inLeaf hw hs out leaf _
    exact ⟨same, editSteps_of_ok found unlocked answer⟩
  · rintro y position rfl missing
    exact editSteps_of_error found unlocked (inserting_noTarget hw missing position kind _)
  · exact editSteps_of_error found unlocked (inserting_inLeaf hw leaf kind _)

/-- A teahouse with two steps that cannot hold others. -/
def teahouse : App where
  ids := StepTree.dollars 5
  timers := [{ id := "tea", name := "Tea", steps := [.leaf "boil" .unknown, .leaf "steep" .unknown] }]
  runner := { equipment := ⟨fun _ _ => .endless, .off, "bell", fun t => ⟨t.millis⟩⟩ }

/-- A step is moved behind the other one; it is not moved into it, though the answer and the last action say so, and a
new one is not inserted there. -/
theorem moveStep_answers_teahouse :
    let within := DropTarget.relative "steep" .inside
    let behind := teahouse.moveStep "tea" "boil" (.relative "steep" .after) ⟨0⟩
    let moved := teahouse.moveStep "tea" "boil" within ⟨0⟩
    let inserted := teahouse.insertStep "tea" within (.action .unknown) ⟨0⟩
    (∀ t, teahouse.timer? "tea" = some t → teahouse.ids.Fresh (Step.idsOf t.steps)) ∧
      (∃ u, behind.1 = .ok u ∧ (DropTarget.relative "steep" .after).Seats "boil" u.steps) ∧
      (∃ u, moved.1 = .ok u ∧ moved.2.timer? "tea" = some u ∧ ¬ within.Seats "boil" u.steps) ∧
      moved.2.lastAction.map (·.1) = some "move step" ∧
      inserted.1 = .error .invalidPlacement ∧ inserted.2.lastAction = none := by
  intro within behind moved inserted
  have fresh : ∀ t, teahouse.timer? "tea" = some t → teahouse.ids.Fresh (Step.idsOf t.steps) := by
    rintro t ⟨⟩
    exact StepTree.dollars_fresh (by decide)
  have leaf : within.InLeaf [.leaf "boil" .unknown, .leaf "steep" .unknown] := ⟨"steep", _, rfl, rfl, rfl⟩
  obtain ⟨atTarget, -⟩ := moveStep_answers teahouse "tea" "boil" (.relative "steep" .after) ⟨0⟩ fresh
  obtain ⟨_, _, ⟨⟩, after⟩ := atTarget _ rfl
  obtain ⟨stays, answers⟩ := moveStep_answers teahouse "tea" "boil" within ⟨0⟩ fresh
  obtain ⟨kept, _, ⟨⟩, apart⟩ := stays _ rfl
  obtain ⟨-, -, insertion⟩ := answers _ rfl rfl
  obtain ⟨-, refused, -⟩ := insertion (.action .unknown)
  refine ⟨fresh, ⟨_, rfl, after.2 ?_⟩, ⟨_, rfl, kept, fun seats => apart.1 seats leaf⟩, by rfl, (refused leaf).1, ?_⟩
  · rintro ⟨_, _, ⟨⟩, -⟩
  · rw [show inserted.2 = _ from (refused leaf).2]
    rfl

end App

end StepTimer
