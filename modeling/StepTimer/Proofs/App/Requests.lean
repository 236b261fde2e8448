/-
What requests come to. A request is refused before it has changed anything but the source of names, or
it is carried out as a whole, and then the timers are stored if it is one that changes them. Where the
timers are kept has no part in that: the folder is only looked at when all else is done. What a request
does to the registry is one revision of it, of at most one timer.
-/
import StepTimer.App.Command
import StepTimer.Proofs.Step.Settings
import StepTimer.Proofs.Tree.History

namespace StepTimer

/-- Whether a refusal comes from storing the timers, when the request has taken effect. -/
def AppError.isStorage : AppError → Bool
  | .storage _ => true
  | _ => false

/-! ## The settings that are brought in -/

/-- The settings that an edit brings into a tree. -/
def StepTree.Edit.brought : StepTree.Edit → List Settings
  | insertAt _ s => s.settingsIn
  | replace _ s => s.settingsIn
  | _ => []

/-- The settings that a request brings into the registry. -/
def Command.brought : Command → List Settings
  | insertStep _ _ kind => (kind.named "").settingsIn
  | replaceStep _ _ kind => (kind.named "").settingsIn
  | _ => []

/-! ## Revisions of the registry -/

/-- From one list of steps to another one by an edit that brings no settings but the given ones. -/
def EditedSteps (brought : List Settings) (steps steps' : List Step) : Prop :=
  ∃ (made used : IdSource) (e : StepTree.Edit),
    e.brought ⊆ brought ∧ steps' = (e.apply used (StepTree.ofSteps made steps).1).1.toSteps

/-- A change of the registry: at most one timer is added, removed or replaced, and the steps of a timer
that is replaced are as before or edited. -/
inductive Revision (brought : List Settings) (timers : List Timer) : List Timer → Prop
  | same : Revision brought timers timers
  | added (t : Timer) (empty : t.steps = []) : Revision brought timers (timers ++ [t])
  | removed (id : TimerId) : Revision brought timers (timers.filter fun t => t.id ≠ id)
  | replaced (t u : Timer) (found : timers.find? (fun x => x.id = t.id) = some t) (name : u.id = t.id)
      (steps : u.steps = t.steps ∨ EditedSteps brought t.steps u.steps) :
      Revision brought timers (App.modifyFirst u.id (fun _ => u) timers)

namespace App

variable {a : App} {id : TimerId} {t u : Timer} {now : Instant} {brought : List Settings}

/-- The application with its timers kept in another folder, or in none. -/
def keptIn (a : App) (store : Option Folder) : App := { a with store := store }

@[simp] theorem timer?_keptIn (a : App) (store : Option Folder) (id : TimerId) :
    (a.keptIn store).timer? id = a.timer? id := rfl

@[simp] theorem ids_keptIn (a : App) (store : Option Folder) : (a.keptIn store).ids = a.ids := rfl

@[simp] theorem renamed?_keptIn (a : App) (store : Option Folder) (t : Timer) (name : Option String) :
    (a.keptIn store).renamed? t name = a.renamed? t name := rfl

/-- What a request comes to, wherever the timers are kept: it is refused and has used up at most some
names, it is carried out on the runs alone, or it changes the registry and the timers are stored. -/
inductive Comes {α : Type} (brought : List Settings) (f : App → Outcome α) (a : App) : Prop
  | refused (e : AppError) (ids : IdSource) (early : e.isStorage = false)
      (h : ∀ store, f (a.keptIn store) = (.error e, { a.keptIn store with ids := ids }))
  | answered (b : App) (x : α) (same : b.timers = a.timers)
      (h : ∀ store, f (a.keptIn store) = (.ok x, b.keptIn store))
  | stored (b : App) (x : α) (revised : Revision brought a.timers b.timers)
      (h : ∀ store, f (a.keptIn store) = (b.keptIn store).stored x)

theorem replied_stored {α : Type} (b : App) (x : α) (reply : α → Reply) :
    replied (b.stored x) reply = b.stored (reply x) := by
  unfold replied stored
  rcases b.persist with ⟨_ | _, b'⟩ <;> rfl

theorem Comes.replied {α : Type} {f : App → Outcome α} (h : Comes brought f a) (reply : α → Reply) :
    Comes brought (fun a => replied (f a) reply) a := by
  cases h with
  | refused e ids early h => exact .refused e ids early fun store => by simp only [h store]; rfl
  | answered b x same h => exact .answered b (reply x) same fun store => by simp only [h store]; rfl
  | stored b x revised h =>
    exact .stored b (reply x) revised fun store => by simp only [h store, replied_stored]

/-- A request that is refused whatever the folder, with all as it was. -/
theorem Comes.of_refused {α : Type} {f : App → Outcome α} (e : AppError) (early : e.isStorage = false)
    (h : ∀ store, f (a.keptIn store) = (.error e, a.keptIn store)) : Comes brought f a :=
  .refused e a.ids early h

/-! ## Timers -/

theorem id_of_timer? (h : a.timer? id = some t) : t.id = id := by
  simpa using List.find?_some h

theorem found_of_timer? (h : a.timer? id = some t) : a.timers.find? (fun x => x.id = t.id) = some t := by
  rw [id_of_timer? h]; exact h

/-- A timer of the registry that keeps its name and its steps may be replaced. -/
theorem Revision.setTimer (h : a.timer? id = some t) (name : u.id = t.id)
    (steps : u.steps = t.steps ∨ EditedSteps brought t.steps u.steps) :
    Revision brought a.timers (a.setTimer u).timers :=
  .replaced t u (found_of_timer? h) name steps

theorem comes_createTimer (a : App) (name : String) (mode : TimerMode) (now : Instant) :
    Comes brought (fun a => a.createTimer name mode now) a := by
  rcases hname : TimerName.unique? name (a.timers.map (·.name)) with _ | fresh
  · refine .of_refused .invalidName rfl fun store => ?_
    unfold createTimer keptIn; rw [hname]
  · let t : Timer := { id := a.ids.next.1, name := fresh, mode := mode }
    refine .stored (({ a with ids := a.ids.next.2, timers := a.timers ++ [t] } : App).record "create" now) t
      (.added t rfl) fun store => ?_
    unfold createTimer keptIn; rw [hname]; rfl

theorem renamed?_eq {name : Option String} (h : a.renamed? t name = some u) : u.id = t.id ∧ u.steps = t.steps := by
  unfold renamed? at h
  rcases name with _ | name
  · cases h; exact ⟨rfl, rfl⟩
  · obtain ⟨fresh, -, rfl⟩ := Option.map_eq_some_iff.1 h
    exact ⟨rfl, rfl⟩

theorem comes_updateTimer (a : App) (id : TimerId) (name : Option String) (locked : Option Bool)
    (now : Instant) : Comes brought (fun a => a.updateTimer id name locked now) a := by
  rcases ht : a.timer? id with _ | t
  · refine .of_refused (.timerNotFound id) rfl fun store => ?_
    unfold updateTimer; rw [timer?_keptIn, ht]
  · rcases hu : a.renamed? t name with _ | u
    · refine .of_refused .invalidName rfl fun store => ?_
      unfold updateTimer
      rw [timer?_keptIn, ht]
      simp only [renamed?_keptIn, hu]
    · obtain ⟨hid, hsteps⟩ := renamed?_eq hu
      have kept : (locked.elim u u.setLocked).id = u.id ∧ (locked.elim u u.setLocked).steps = u.steps := by
        rcases locked with _ | l <;> exact ⟨rfl, rfl⟩
      refine .stored ((a.setTimer (locked.elim u u.setLocked)).record "update" now) (locked.elim u u.setLocked)
        (Revision.setTimer ht (kept.1.trans hid) (.inl (kept.2.trans hsteps))) fun store => ?_
      unfold updateTimer
      rw [timer?_keptIn, ht]
      simp only [renamed?_keptIn, hu]
      rfl

theorem comes_deleteTimer (a : App) (id : TimerId) (now : Instant) :
    Comes brought (fun a => a.deleteTimer id now) a := by
  rcases ht : a.timer? id with _ | t
  · refine .of_refused (.timerNotFound id) rfl fun store => ?_
    unfold deleteTimer; rw [timer?_keptIn, ht]
  · refine .stored ({ a.removeTimer id with runner := a.runner.forget id now }.record "delete" now) ()
      (.removed id) fun store => ?_
    unfold deleteTimer; rw [timer?_keptIn, ht]; rfl

/-! ## Steps -/

/-- An edit of a tree that is one of the known edits when it is not refused; a refusal does not come
from the store. -/
structure IsEdit (brought : List Settings) (edit : TreeEdit) : Prop where
  refusal : ∀ ids tree e, edit ids tree = .error e → e.isStorage = false
  edited : ∀ ids tree tree' ids', edit ids tree = .ok (tree', ids') →
    ∃ (used : IdSource) (e : StepTree.Edit), e.brought ⊆ brought ∧ tree' = (e.apply used tree).1

theorem comes_editSteps (a : App) (id : TimerId) (action : String) (now : Instant) {edit : TreeEdit}
    (he : IsEdit brought edit) : Comes brought (fun a => a.editSteps id action now edit) a := by
  rcases ht : a.timer? id with _ | t
  · refine .of_refused (.timerNotFound id) rfl fun store => ?_
    unfold editSteps; rw [timer?_keptIn, ht]
  · by_cases hl : t.locked = true
    · refine .of_refused (.locked t.id) rfl fun store => ?_
      unfold editSteps; rw [timer?_keptIn, ht]
      simp only [if_pos hl]
    · rcases hedit : edit (StepTree.ofSteps a.ids t.steps).2 (StepTree.ofSteps a.ids t.steps).1 with e | ⟨tree, ids⟩
      · refine .refused e (StepTree.ofSteps a.ids t.steps).2 (he.refusal _ _ _ hedit) fun store => ?_
        unfold editSteps; rw [timer?_keptIn, ht]
        simp only [if_neg hl]
        rw [ids_keptIn, hedit]
      · obtain ⟨used, e, sub, rfl⟩ := he.edited _ _ _ _ hedit
        let u : Timer := { t with steps := (e.apply used (StepTree.ofSteps a.ids t.steps).1).1.toSteps }
        have revised : Revision brought a.timers (a.setTimer u).timers :=
          Revision.setTimer ht rfl (.inr ⟨a.ids, used, e, sub, rfl⟩)
        refine .stored ((({ a with ids := ids } : App).setTimer u).record action now) u revised fun store => ?_
        unfold editSteps; rw [timer?_keptIn, ht]
        simp only [if_neg hl]
        rw [ids_keptIn, hedit]
        rfl

theorem requireStep_error {tree : StepTree} {step : StepId} {e : AppError} (h : requireStep tree step = .error e) :
    e.isStorage = false := by
  unfold requireStep at h
  split at h <;> cases h
  rfl

theorem requireTarget_error {tree : StepTree} {target : DropTarget} {e : AppError}
    (h : requireTarget tree target = .error e) : e.isStorage = false := by
  cases target with
  | rootStart => cases h
  | rootEnd => cases h
  | relative target position => exact requireStep_error h

/-- An edit that first requires something of the tree. -/
theorem IsEdit.after {edit : TreeEdit} {need : StepTree → Except AppError Unit}
    (hneed : ∀ tree e, need tree = .error e → e.isStorage = false) (he : IsEdit brought edit) :
    IsEdit brought fun ids tree => (do need tree; edit ids tree) := by
  constructor
  · intro ids tree e h
    rcases hn : need tree with e' | ⟨⟩
    · rw [hn] at h; cases h; exact hneed tree e hn
    · rw [hn] at h; exact he.refusal ids tree e h
  · intro ids tree tree' ids' h
    rcases hn : need tree with e' | ⟨⟩
    · rw [hn] at h; cases h
    · rw [hn] at h; exact he.edited ids tree tree' ids' h

/-- An edit that is never refused. -/
theorem IsEdit.of_total (e : IdSource → StepTree.Edit) (used : IdSource → IdSource)
    (sub : ∀ ids, (e ids).brought ⊆ brought) : IsEdit brought fun ids tree => .ok ((e ids).apply (used ids) tree) := by
  refine ⟨fun _ _ _ h => (nomatch h), fun ids tree tree' ids' h => ?_⟩
  exact ⟨used ids, e ids, sub ids, (congrArg Prod.fst (Except.ok.inj h)).symm⟩

theorem comes_insertStep (a : App) (id : TimerId) (target : DropTarget) (kind : StepKind) (now : Instant) :
    Comes (kind.named "").settingsIn (fun a => a.insertStep id target kind now) a := by
  refine comes_editSteps a id _ now (.after (fun _ _ => requireTarget_error) ⟨fun ids tree e h => ?_, ?_⟩)
  · simp only at h
    split at h <;> cases h
    rfl
  · intro ids tree tree' ids' h
    simp only at h
    split at h <;> cases h
    refine ⟨_, .insertAt target ((kind.named "").withFreshIds ids).1, ?_, rfl⟩
    exact fun _ hx => Step.settingsIn_withFreshIds ids (kind.named "") ▸ hx

theorem settingsIn_freshChildren (ids : IdSource) (kind : StepKind) (name : StepId) :
    ((freshChildren ids kind).1.named name).settingsIn = (kind.named "").settingsIn := by
  cases kind with
  | action a => rfl
  | block f children =>
    exact congrArg (Settings.block f :: ·) (Step.settingsOf_withFreshIdsEach ids children)

theorem comes_replaceStep (a : App) (id : TimerId) (step : StepId) (kind : StepKind) (now : Instant) :
    Comes (kind.named "").settingsIn (fun a => a.replaceStep id step kind now) a := by
  refine comes_editSteps a id _ now (.after (fun _ _ => requireStep_error) ?_)
  exact .of_total (fun ids => .replace step ((freshChildren ids kind).1.named step))
    (fun ids => (freshChildren ids kind).2) fun ids _ hx => settingsIn_freshChildren ids kind step ▸ hx

theorem comes_deleteStep (a : App) (id : TimerId) (step : StepId) (now : Instant) :
    Comes brought (fun a => a.deleteStep id step now) a := by
  refine comes_editSteps a id _ now (.after (fun _ _ => requireStep_error) ?_)
  exact .of_total (fun _ => .delete step) (fun ids => ids) fun _ => List.nil_subset _

theorem comes_moveStep (a : App) (id : TimerId) (step : StepId) (target : DropTarget) (now : Instant) :
    Comes brought (fun a => a.moveStep id step target now) a := by
  refine comes_editSteps a id _ now
    (.after (fun _ _ => requireStep_error) (.after (fun _ _ => requireTarget_error) ⟨?_, ?_⟩))
  · intro ids tree e h
    split at h <;> cases h
    rfl
  · intro ids tree tree' ids' h
    split at h <;> cases h
    exact ⟨ids, .moveTo step target, List.nil_subset _, rfl⟩

theorem comes_duplicateStep (a : App) (id : TimerId) (step : StepId) (now : Instant) :
    Comes brought (fun a => a.duplicateStep id step now) a := by
  refine comes_editSteps a id _ now (.after (fun _ _ => requireStep_error) ?_)
  exact .of_total (fun _ => .duplicate step) (fun ids => ids) fun _ => List.nil_subset _

/-! ## Runs and laps -/

theorem comes_control (a : App) (id : TimerId) (action : String) (now : Instant) (act : Runner → Timer → Runner) :
    Comes brought (fun a => a.control id action now act) a := by
  rcases ht : a.timer? id with _ | t
  · refine .of_refused (.timerNotFound id) rfl fun store => ?_
    unfold control; rw [timer?_keptIn, ht]
  · refine .answered (({ a with runner := act a.runner t } : App).record action now)
      ((act a.runner t).snapshot id now) rfl fun store => ?_
    unfold control; rw [timer?_keptIn, ht]; rfl

/-- A request that only reads. -/
theorem comes_read {α : Type} (a : App) (read : App → Except AppError α)
    (same : ∀ store, read (a.keptIn store) = read a) (early : ∀ e, read a = .error e → e.isStorage = false) :
    Comes brought (fun a => (read a, a)) a := by
  rcases hr : read a with e | x
  · exact .of_refused e (early e hr) fun store => by simp only [same store, hr]
  · exact .answered a x rfl fun store => by simp only [same store, hr]

theorem getTimer_error {e : AppError} (h : a.getTimer id = .error e) : e.isStorage = false := by
  unfold getTimer at h
  split at h <;> cases h
  rfl

theorem runState_error {e : AppError} (h : a.runState id now = .error e) : e.isStorage = false := by
  unfold runState at h
  rcases hg : a.getTimer id with e' | t
  · rw [hg] at h; cases h; exact getTimer_error hg
  · rw [hg] at h; cases h

theorem comes_mark (a : App) (id : TimerId) (name : Option String) (now : Instant) :
    Comes brought (fun a => a.mark id name now) a := by
  rcases ht : a.timer? id with _ | t
  · refine .of_refused (.timerNotFound id) rfl fun store => ?_
    unfold mark; rw [timer?_keptIn, ht]
  · rcases hm : a.runner.mark a.ids id (lapName t.logs.length name) now with ⟨_ | lap, ids⟩
    · refine .of_refused (.notRunning id) rfl fun store => ?_
      unfold mark; rw [timer?_keptIn, ht]
      simp only [keptIn, hm]
    · refine .stored ((({ a with ids := ids } : App).setTimer { t with logs := t.logs ++ [lap] }).record "mark" now) lap
        (Revision.setTimer (u := { t with logs := _ }) ht rfl (.inl rfl)) fun store => ?_
      unfold mark; rw [timer?_keptIn, ht]
      simp only [keptIn, hm]
      rfl

theorem comes_reset (a : App) (id : TimerId) (now : Instant) : Comes brought (fun a => a.reset id now) a := by
  rcases ht : a.timer? id with _ | t
  · refine .of_refused (.timerNotFound id) rfl fun store => ?_
    unfold reset; rw [timer?_keptIn, ht]
  · by_cases hm : t.mode ≠ .stopwatch
    · refine .of_refused (.notStopwatch t.id) rfl fun store => ?_
      unfold reset; rw [timer?_keptIn, ht]
      simp only [if_pos hm]
    · refine .stored ({ a.setTimer { t with logs := [] } with runner := a.runner.reset id now }.record "reset" now)
        { t with logs := [] } (Revision.setTimer (u := { t with logs := [] }) ht rfl (.inl rfl)) fun store => ?_
      unfold reset; rw [timer?_keptIn, ht]
      simp only [if_neg hm]
      rfl

theorem comes_editLogs (a : App) (id : TimerId) (log : String) (edit : Timer → Timer)
    (kept : ∀ t, (edit t).id = t.id ∧ (edit t).steps = t.steps) :
    Comes brought (fun a => a.editLogs id log edit) a := by
  rcases ht : a.timer? id with _ | t
  · refine .of_refused (.timerNotFound id) rfl fun store => ?_
    unfold editLogs; rw [timer?_keptIn, ht]
  · by_cases hl : t.hasLog log = true
    · refine .stored (a.setTimer (edit t)) (edit t) (Revision.setTimer ht (kept t).1 (.inl (kept t).2)) fun store => ?_
      unfold editLogs; rw [timer?_keptIn, ht]
      simp only [if_pos hl]
      rfl
    · refine .of_refused (.logNotFound log) rfl fun store => ?_
      unfold editLogs; rw [timer?_keptIn, ht]
      simp only [if_neg hl]

theorem comes_renameLog (a : App) (id : TimerId) (log name : String) :
    Comes brought (fun a => a.renameLog id log name) a := by
  by_cases hn : Text.trim name = ""
  · refine .of_refused .invalidName rfl fun store => ?_
    unfold renameLog; rw [if_pos hn]
  · have h : (fun a : App => a.renameLog id log name) =
        fun a => a.editLogs id log fun t => t.renameLog log (Text.trim name) := by
      funext a; unfold renameLog; rw [if_neg hn]
    rw [h]
    exact comes_editLogs a id log _ fun _ => ⟨rfl, rfl⟩

theorem comes_persist (a : App) : Comes brought (fun a => replied a.persist fun _ => .done) a := by
  refine .stored a .done .same fun store => ?_
  show replied (a.keptIn store).persist _ = _
  unfold replied stored
  rcases (a.keptIn store).persist with ⟨_ | _, b⟩ <;> rfl

/-- What every request comes to. -/
theorem comes_perform (a : App) (now : Instant) (c : Command) : Comes c.brought (fun a => a.perform now c) a := by
  cases c with
  | create name mode => exact (comes_createTimer a name mode now).replied _
  | update id name locked => exact (comes_updateTimer a id name locked now).replied _
  | delete id => exact (comes_deleteTimer a id now).replied _
  | get id => exact (comes_read a (·.getTimer id) (fun _ => rfl) fun _ => getTimer_error).replied _
  | list => exact comes_read a (fun a => .ok (Reply.timers a.timers)) (fun _ => rfl) fun _ h => by cases h
  | insertStep id target kind => exact (comes_insertStep a id target kind now).replied _
  | replaceStep id step kind => exact (comes_replaceStep a id step kind now).replied _
  | deleteStep id step => exact (comes_deleteStep a id step now).replied _
  | moveStep id step target => exact (comes_moveStep a id step target now).replied _
  | duplicateStep id step => exact (comes_duplicateStep a id step now).replied _
  | start id => exact (comes_control a id "start" now _).replied _
  | pause id => exact (comes_control a id "pause" now _).replied _
  | restart id => exact (comes_control a id "restart" now _).replied _
  | stop id => exact (comes_control a id "stop" now _).replied _
  | runState id => exact (comes_read a (·.runState id now) (fun _ => rfl) fun _ => runState_error).replied _
  | mark id name => exact (comes_mark a id name now).replied _
  | reset id => exact (comes_reset a id now).replied _
  | renameLog id log name => exact (comes_renameLog a id log name).replied _
  | deleteLog id log => exact (comes_editLogs a id log (fun t => t.deleteLog log) fun _ => ⟨rfl, rfl⟩).replied _
  | persist => exact comes_persist a

end App

end StepTimer
