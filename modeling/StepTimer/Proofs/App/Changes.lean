/-
What a request does to the registry and to the source of names, said once for all requests: `Change` has
one case for each way in which timers are made, renamed, locked, removed, edited or given laps, with all
that the request has made sure of before. What every request keeps is read off these cases.
-/
import StepTimer.Proofs.App.Refusal
import StepTimer.Proofs.Tree.Names

namespace StepTimer.App

variable {a : App} {id : TimerId} {t u : Timer} {timers : List Timer} {now : Instant} {c : Command}

@[simp] theorem timers_stored {α : Type} (b : App) (x : α) : (b.stored x).2.timers = b.timers := by
  rw [stored_snd]; rfl

@[simp] theorem ids_stored {α : Type} (b : App) (x : α) : (b.stored x).2.ids = b.ids := by
  rw [stored_snd]; rfl

@[simp] theorem snd_replied {α : Type} (outcome : Outcome α) (reply : α → Reply) :
    (replied outcome reply).2 = outcome.2 := rfl

/-- What a request makes of the registry and of the source of names. -/
inductive Change (a : App) : Command → List Timer → IdSource → Prop
  /-- The request only reads, is refused, or has to do with the runs alone. -/
  | kept (c : Command) : Change a c a.timers a.ids
  /-- An edit is refused when the tree of the steps has been made. -/
  | spent (c : Command) (t : Timer) (found : a.timer? t.id = some t) :
    Change a c a.timers (StepTree.ofSteps a.ids t.steps).2
  | created {requested name : String} (mode : TimerMode)
      (free : TimerName.unique? requested (a.timers.map (·.name)) = some name) :
    Change a (.create requested mode) (a.timers ++ [{ id := a.ids.next.1, name := name, mode := mode }]) a.ids.next.2
  | updated {requested : Option String} (locked : Option Bool) {t u : Timer} (found : a.timer? t.id = some t)
      (named : a.renamed? t requested = some u) :
    Change a (.update t.id requested locked) (modifyFirst t.id (fun _ => locked.elim u u.setLocked) a.timers) a.ids
  | removed (id : TimerId) : Change a (.delete id) (a.timers.filter fun t => t.id ≠ id) a.ids
  | edited (c : Command) {t : Timer} {tree : StepTree} {ids : IdSource} (found : a.timer? t.id = some t)
      (unlocked : t.locked = false)
      (whole : ∀ used, a.ids.Fresh (Step.idsOf t.steps ++ used) → tree.WF ∧ ids.Fresh (tree.keys ++ used)) :
    Change a c (modifyFirst t.id (fun _ => { t with steps := tree.toSteps }) a.timers) ids
  | lapped (c : Command) {t : Timer} {lap : LogEntry} (found : a.timer? t.id = some t)
      (named : lap.id = a.ids.next.1) :
    Change a c (modifyFirst t.id (fun _ => { t with logs := t.logs ++ [lap] }) a.timers) a.ids.next.2
  | relogged (c : Command) {t : Timer} {logs : List LogEntry} (found : a.timer? t.id = some t)
      (sub : (logs.map (·.id)).Sublist (t.logs.map (·.id))) :
    Change a c (modifyFirst t.id (fun _ => { t with logs := logs }) a.timers) a.ids

theorem timer?_self (h : a.timer? id = some t) : a.timer? t.id = some t := by rw [id_of_timer? h]; exact h

/-! ## Timers -/

theorem change_createTimer (a : App) (name : String) (mode : TimerMode) (now : Instant) :
    Change a (.create name mode) (a.createTimer name mode now).2.timers (a.createTimer name mode now).2.ids := by
  unfold createTimer
  split
  · exact .kept _
  next free => simp only [timers_stored, ids_stored]; exact .created mode free

theorem change_updateTimer (a : App) (id : TimerId) (name : Option String) (locked : Option Bool) (now : Instant) :
    Change a (.update id name locked) (a.updateTimer id name locked now).2.timers
      (a.updateTimer id name locked now).2.ids := by
  unfold updateTimer
  split
  · exact .kept _
  next t found =>
    split
    · exact .kept _
    next u named =>
      obtain rfl := id_of_timer? found
      have same : (locked.elim u u.setLocked).id = t.id := by
        rw [← (renamed?_eq named).1]; rcases locked with _ | l <;> rfl
      simp only [timers_stored, ids_stored, setTimer, same]
      exact .updated locked found named

theorem change_deleteTimer (a : App) (id : TimerId) (now : Instant) :
    Change a (.delete id) (a.deleteTimer id now).2.timers (a.deleteTimer id now).2.ids := by
  unfold deleteTimer
  split
  · exact .kept _
  next => simp only [timers_stored, ids_stored]; exact .removed id

/-! ## Steps -/

/-- An edit of a tree that leaves it well-formed, and the source fresh for it and for all else. -/
def KeepsTrees (edit : TreeEdit) : Prop :=
  ∀ (used : List StepId) (ids : IdSource) (tree : StepTree), tree.WF → ids.Fresh (tree.keys ++ used) →
    ∀ r, edit ids tree = .ok r → r.1.WF ∧ r.2.Fresh (r.1.keys ++ used)

theorem change_editSteps (a : App) (c : Command) (id : TimerId) (action : String) (now : Instant) {edit : TreeEdit}
    (he : KeepsTrees edit) :
    Change a c (a.editSteps id action now edit).2.timers (a.editSteps id action now edit).2.ids := by
  unfold editSteps
  split
  · exact .kept _
  next t found =>
    split
    · exact .kept _
    next unlocked =>
      dsimp only
      split
      · exact .spent c t (timer?_self found)
      next tree ids hedit =>
        simp only [timers_stored, ids_stored]
        refine .edited (t := t) c (timer?_self found) (by simpa using unlocked) fun used fresh => ?_
        have own : a.ids.Fresh (Step.idsOf t.steps) := fresh.mono fun x hx => List.mem_append_left _ hx
        exact he used _ _ (StepTree.wf_ofSteps t.steps own) (StepTree.fresh_ofSteps fresh) _ hedit

/-- An edit that first requires something of the tree. -/
theorem KeepsTrees.after {edit : TreeEdit} (he : KeepsTrees edit) (need : StepTree → Except AppError Unit) :
    KeepsTrees fun ids tree => (do need tree; edit ids tree) := by
  intro used ids tree hw fresh r h
  dsimp only at h
  rcases hn : need tree with e | ⟨⟩
  · rw [hn] at h; cases h
  · rw [hn] at h; exact he used ids tree hw fresh r h

/-- A known edit, carried out after the steps that it brings in got fresh names. -/
theorem KeepsTrees.of_edit {edit : TreeEdit}
    (h : ∀ (used : List StepId) (ids : IdSource) (tree : StepTree), ids.Fresh (tree.keys ++ used) →
      ∀ r, edit ids tree = .ok r → ∃ (e : StepTree.Edit) (ids' : IdSource),
        ids'.Fresh (tree.keys ++ (e.newNames ++ used)) ∧ r = e.apply ids' tree) : KeepsTrees edit := by
  intro used ids tree hw fresh r hr
  obtain ⟨e, ids', fresh', rfl⟩ := h used ids tree fresh r hr
  exact StepTree.kept_apply hw e fresh'

theorem change_insertStep (a : App) (id : TimerId) (target : DropTarget) (kind : StepKind) (now : Instant) :
    Change a (.insertStep id target kind) (a.insertStep id target kind now).2.timers
      (a.insertStep id target kind now).2.ids := by
  refine change_editSteps a _ id _ now (.after (.of_edit ?_) _)
  intro used ids tree fresh r hr
  dsimp only at hr
  split at hr <;> cases hr
  refine ⟨.insertAt target ((kind.named "").withFreshIds ids).1, ((kind.named "").withFreshIds ids).2, ?_, rfl⟩
  refine (Step.fresh_withFreshIds ids fresh (kind.named "")).mono fun x hx => ?_
  simp only [StepTree.Edit.newNames, List.mem_append] at hx ⊢; tauto

/-- The children that a replacing step brings have names that are new, whatever names were given. -/
theorem fresh_freshChildren {ids : IdSource} {used : List StepId} (fresh : ids.Fresh used) (kind : StepKind)
    (name : StepId) :
    (freshChildren ids kind).2.Fresh (used ++ Step.idsOf ((freshChildren ids kind).1.named name).children) := by
  cases kind with
  | action action => exact fresh.mono fun x hx => (List.mem_append.1 hx).elim (fun h => h) fun h => by cases h
  | block frame children => exact Step.fresh_withFreshIdsEach ids fresh children

theorem change_replaceStep (a : App) (id : TimerId) (step : StepId) (kind : StepKind) (now : Instant) :
    Change a (.replaceStep id step kind) (a.replaceStep id step kind now).2.timers
      (a.replaceStep id step kind now).2.ids := by
  refine change_editSteps a _ id _ now (.after (.of_edit ?_) _)
  rintro used ids tree fresh r ⟨⟩
  refine ⟨.replace step ((freshChildren ids kind).1.named step), (freshChildren ids kind).2, ?_, rfl⟩
  refine (fresh_freshChildren fresh kind step).mono fun x hx => ?_
  simp only [StepTree.Edit.newNames, List.mem_append] at hx ⊢; tauto

theorem change_deleteStep (a : App) (id : TimerId) (step : StepId) (now : Instant) :
    Change a (.deleteStep id step) (a.deleteStep id step now).2.timers (a.deleteStep id step now).2.ids := by
  refine change_editSteps a _ id _ now (.after (.of_edit ?_) _)
  rintro used ids tree fresh r ⟨⟩
  exact ⟨.delete step, ids, fresh, rfl⟩

theorem change_moveStep (a : App) (id : TimerId) (step : StepId) (target : DropTarget) (now : Instant) :
    Change a (.moveStep id step target) (a.moveStep id step target now).2.timers
      (a.moveStep id step target now).2.ids := by
  refine change_editSteps a _ id _ now (.after (.after (.of_edit ?_) _) _)
  intro used ids tree fresh r hr
  split at hr <;> cases hr
  exact ⟨.moveTo step target, ids, fresh, rfl⟩

theorem change_duplicateStep (a : App) (id : TimerId) (step : StepId) (now : Instant) :
    Change a (.duplicateStep id step) (a.duplicateStep id step now).2.timers
      (a.duplicateStep id step now).2.ids := by
  refine change_editSteps a _ id _ now (.after (.of_edit ?_) _)
  rintro used ids tree fresh r ⟨⟩
  exact ⟨.duplicate step, ids, fresh, rfl⟩

/-! ## Runs and laps -/

theorem change_control (a : App) (c : Command) (id : TimerId) (action : String) (now : Instant)
    (act : Runner → Timer → Runner) :
    Change a c (a.control id action now act).2.timers (a.control id action now act).2.ids := by
  unfold control
  split <;> exact .kept _

/-- A lap has the next name of the source. -/
theorem named_of_mark {r : Runner} {source ids : IdSource} {name : String} {lap : LogEntry}
    (h : r.mark source id name now = (some lap, ids)) : lap.id = source.next.1 ∧ ids = source.next.2 := by
  unfold Runner.mark at h
  split at h
  · cases h
  · split at h
    · cases h; exact ⟨rfl, rfl⟩
    · cases h

theorem change_mark (a : App) (id : TimerId) (name : Option String) (now : Instant) :
    Change a (.mark id name) (a.mark id name now).2.timers (a.mark id name now).2.ids := by
  unfold mark
  split
  · exact .kept _
  next t found =>
    split
    · exact .kept _
    next lap ids marked =>
      obtain ⟨named, rfl⟩ := named_of_mark marked
      simp only [timers_stored, ids_stored]
      exact .lapped _ (timer?_self found) named

theorem change_reset (a : App) (id : TimerId) (now : Instant) :
    Change a (.reset id) (a.reset id now).2.timers (a.reset id now).2.ids := by
  unfold reset
  split
  · exact .kept _
  next t found =>
    split
    · exact .kept _
    · simp only [timers_stored, ids_stored]
      exact .relogged (t := t) _ (timer?_self found) (List.nil_sublist _)

theorem change_editLogs (a : App) (c : Command) (id : TimerId) (log : String) {logs : List LogEntry → List LogEntry}
    (sub : ∀ l, ((logs l).map (·.id)).Sublist (l.map (·.id))) :
    Change a c (a.editLogs id log fun t => { t with logs := logs t.logs }).2.timers
      (a.editLogs id log fun t => { t with logs := logs t.logs }).2.ids := by
  unfold editLogs
  split
  · exact .kept _
  next t found =>
    split
    · simp only [timers_stored, ids_stored]
      exact .relogged (t := t) _ (timer?_self found) (sub t.logs)
    · exact .kept _

theorem ids_renameIn (log name : String) (l : List LogEntry) :
    (Timer.renameIn log name l).map (·.id) = l.map (·.id) := by
  induction l with
  | nil => rfl
  | cons entry rest ih =>
    unfold Timer.renameIn
    split
    · rfl
    · rw [List.map_cons, List.map_cons, ih]

theorem change_renameLog (a : App) (id : TimerId) (log name : String) :
    Change a (.renameLog id log name) (a.renameLog id log name).2.timers (a.renameLog id log name).2.ids := by
  unfold renameLog
  dsimp only
  split
  · exact .kept _
  · exact change_editLogs a _ id log fun l => by rw [ids_renameIn]

theorem change_deleteLog (a : App) (id : TimerId) (log : String) :
    Change a (.deleteLog id log) (a.deleteLog id log).2.timers (a.deleteLog id log).2.ids :=
  change_editLogs a _ id log fun _ => List.filter_sublist.map _

theorem change_persist (a : App) : Change a .persist a.persist.2.timers a.persist.2.ids := by
  rcases persist_cases a with ⟨-, h⟩ | ⟨folder, -, h⟩ <;> rw [h] <;> exact .kept _

/-- What every request makes of the registry. -/
theorem change_perform (a : App) (now : Instant) (c : Command) :
    Change a c (a.perform now c).2.timers (a.perform now c).2.ids := by
  cases c with
  | create name mode => rw [perform, snd_replied]; exact change_createTimer a name mode now
  | update id name locked => exact change_updateTimer a id name locked now
  | delete id => exact change_deleteTimer a id now
  | get id => exact .kept _
  | list => exact .kept _
  | insertStep id target kind => exact change_insertStep a id target kind now
  | replaceStep id step kind => exact change_replaceStep a id step kind now
  | deleteStep id step => exact change_deleteStep a id step now
  | moveStep id step target => exact change_moveStep a id step target now
  | duplicateStep id step => exact change_duplicateStep a id step now
  | start id => exact change_control a _ id "start" now _
  | pause id => exact change_control a _ id "pause" now _
  | restart id => exact change_control a _ id "restart" now _
  | stop id => exact change_control a _ id "stop" now _
  | runState id => exact .kept _
  | mark id name => exact change_mark a id name now
  | reset id => exact change_reset a id now
  | renameLog id log name => rw [perform, snd_replied]; exact change_renameLog a id log name
  | deleteLog id log => exact change_deleteLog a id log
  | persist => exact change_persist a

end StepTimer.App
