/-
The scopes of a request. A request takes one lock after the other: it looks up its timer or changes the registry,
it calls the table of runs, it stores the timers. Each of these scopes is undisturbed, but between them other
requests have theirs. `Stage` says where a request is, `Stage.next` what its next scope does, and a request whose
scopes come in a row does what `App.perform` does (`alone`).

What later proofs need of a scope is said once: what it does to the table of runs (`runner_next`), that the names
of the registry and those that a request has taken with it are not given again (`fresh_next`), that no timer comes
back (`absent_next`), and that the table of runs is only called about a timer that was seen (`op?_next`).
-/
import StepTimer.Proofs.App.Registry
import StepTimer.Proofs.Run.Isolation
import Mathlib.Logic.Function.Iterate

namespace StepTimer

open Runner (Op)

/-- What a request asks of the run of a timer, of which it takes a copy first. -/
inductive Errand where
  | start | pause | restart | stop

namespace Errand

/-- The call of the table of runs, with the copy of the timer. -/
def call (t : Timer) : Errand → Op
  | start => .start t
  | pause => .pause t
  | restart => .restart t
  | stop => .stop t.id

/-- The note of the action. -/
def note : Errand → String
  | start => "start"
  | pause => "pause"
  | restart => "restart"
  | stop => "stop"

end Errand

/-- Where a request is. -/
inductive Stage where
  /-- It has not begun yet. -/
  | fresh (c : Command)
  /-- It has a copy of its timer, and is about to call the table of runs. -/
  | copied (action : Errand) (t : Timer)
  /-- It is about to read the state of its timer. -/
  | reading (id : TimerId)
  /-- It has a copy of its timer, and is about to take a lap. -/
  | marking (name : Option String) (t : Timer)
  /-- It has a lap that it is about to note. -/
  | lapped (id : TimerId) (lap : LogEntry)
  /-- Its timer is out of the registry, and about to be forgotten. -/
  | removed (id : TimerId)
  /-- The laps of its timer are gone, and the stopwatch is about to be set to zero. -/
  | cleared (t : Timer)
  /-- All is done but storing the timers. -/
  | storing (reply : Reply)
  | returned (result : Except AppError Reply)

namespace App

/-- The scope in which a request looks up its timer. -/
def lookUp (a : App) (id : TimerId) (next : Timer → Stage × App) : Stage × App :=
  (a.timer? id).elim (.returned (.error (.timerNotFound id)), a) next

/-- The scope in which a request does all it does but storing the timers. -/
def change (a : App) (now : Instant) (c : Command) : Stage × App :=
  match (a.keptIn none).perform now c with
  | (.ok reply, b) => (if c.stores then .storing reply else .returned (.ok reply), b.keptIn a.store)
  | (.error e, b) => (.returned (.error e), b.keptIn a.store)

/-- The first scope of a request. -/
def begin (a : App) (now : Instant) : Command → Stage × App
  | .start id => a.lookUp id fun t => (.copied .start t, a)
  | .pause id => a.lookUp id fun t => (.copied .pause t, a)
  | .restart id => a.lookUp id fun t => (.copied .restart t, a)
  | .stop id => a.lookUp id fun t => (.copied .stop t, a)
  | .runState id => a.lookUp id fun t => (.reading t.id, a)
  | .mark id name => a.lookUp id fun t => (.marking name t, a)
  | .delete id => a.lookUp id fun _ => (.removed id, a.removeTimer id)
  | .reset id => a.lookUp id fun t =>
    if t.mode ≠ .stopwatch then (.returned (.error (.notStopwatch t.id)), a)
    else (.cleared { t with logs := [] }, a.setTimer { t with logs := [] })
  | c => a.change now c

/-- The application after a call of the table of runs. -/
def call (a : App) (now : Instant) (op : Op) (note : String) : App :=
  { a with runner := a.runner.perform now op }.record note now

end App

namespace Stage

/-- The next scope of a request; none is left when it has returned. -/
def next (now : Instant) (a : App) : Stage → Stage × App
  | fresh c => a.begin now c
  | copied action t => (reading t.id, a.call now (action.call t) action.note)
  | reading id => (returned (.ok (.run (a.runner.snapshot id now))), a)
  | marking name t =>
    match a.runner.mark a.ids t.id (App.lapName t.logs.length name) now with
    | (none, _) => (returned (.error (.notRunning t.id)), a)
    | (some lap, ids) => (lapped t.id lap, { a with ids := ids })
  | lapped id lap => a.lookUp id fun t =>
    (storing (.lap lap), (a.setTimer { t with logs := t.logs ++ [lap] }).record "mark" now)
  | removed id => (storing .done, a.call now (.forget id) "delete")
  | cleared t => (storing (.timer t), a.call now (.reset t.id) "reset")
  | storing reply => (returned (a.stored reply).1, (a.stored reply).2)
  | returned result => (returned result, a)

/-- The call of the table of runs that a request is about to make. -/
def op? : Stage → Option Op
  | copied action t => some (action.call t)
  | removed id => some (.forget id)
  | cleared t => some (.reset t.id)
  | _ => none

/-- The names that a request has taken with it. -/
def names : Stage → List String
  | lapped _ lap => [lap.id]
  | removed id => [id]
  | _ => []

/-- Whether a request has not begun or has returned. -/
def isSettled : Stage → Bool
  | fresh _ => true
  | returned _ => true
  | _ => false

theorem op?_of_isSettled {g : Stage} (h : g.isSettled = true) : g.op? = none := by
  cases g <;> first | rfl | cases h

end Stage

/-! ## Scopes in a row -/

namespace App

variable {a b : App} {id : TimerId} {now : Instant} {c : Command}

/-- What is left of a request that has been carried out but for storing. -/
def thenStored {α : Type} (store : Option Folder) : Outcome α → Outcome α
  | (.ok x, b) => (b.keptIn store).stored x
  | (.error e, b) => (.error e, b.keptIn store)

/-- A request that stores the timers when all else is done, if it is not refused, and leaves the runs alone. -/
structure StoresLast {α : Type} (f : App → Outcome α) (a : App) : Prop where
  stored : f a = thenStored a.store (f (a.keptIn none))
  runner : (f (a.keptIn none)).2.runner = a.runner

theorem StoresLast.replied {α : Type} {f : App → Outcome α} (h : StoresLast f a) (reply : α → Reply) :
    StoresLast (fun a => App.replied (f a) reply) a := by
  refine ⟨?_, h.runner⟩
  show App.replied (f a) reply = _
  rw [h.stored]
  dsimp only [App.replied]
  rcases f (a.keptIn none) with ⟨e | x, b⟩
  · rfl
  · exact replied_stored _ x reply

theorem storesLast_createTimer (a : App) (name : String) (mode : TimerMode) (now : Instant) :
    StoresLast (fun a => a.createTimer name mode now) a := by
  constructor <;> dsimp only [createTimer, keptIn] <;> split <;> rfl

theorem storesLast_updateTimer (a : App) (id : TimerId) (name : Option String) (locked : Option Bool) (now : Instant) :
    StoresLast (fun a => a.updateTimer id name locked now) a := by
  constructor <;> simp only [updateTimer, timer?_keptIn, renamed?_keptIn] <;> split
  · rfl
  · split <;> rfl
  · rfl
  · split <;> rfl

theorem storesLast_editSteps (a : App) (id : TimerId) (action : String) (now : Instant) (edit : TreeEdit) :
    StoresLast (fun a => a.editSteps id action now edit) a := by
  constructor <;> simp only [editSteps, timer?_keptIn, ids_keptIn] <;> split
  · rfl
  · split
    · rfl
    · split <;> rfl
  · rfl
  · split
    · rfl
    · split <;> rfl

theorem storesLast_editLogs (a : App) (id : TimerId) (log : String) (edit : Timer → Timer) :
    StoresLast (fun a => a.editLogs id log edit) a := by
  constructor <;> simp only [editLogs, timer?_keptIn] <;> split
  · rfl
  · split <;> rfl
  · rfl
  · split <;> rfl

theorem storesLast_renameLog (a : App) (id : TimerId) (log name : String) :
    StoresLast (fun a => a.renameLog id log name) a := by
  by_cases blank : Text.trim name = ""
  · constructor <;> simp only [renameLog, if_pos blank] <;> rfl
  · have h := storesLast_editLogs a id log fun t => t.renameLog log (Text.trim name)
    constructor <;> simp only [renameLog, if_neg blank]
    · exact h.stored
    · exact h.runner

theorem storesLast_persist (a : App) : StoresLast App.persist a := by
  refine ⟨?_, rfl⟩
  show a.persist = (a.keptIn a.store).stored ()
  unfold stored keptIn
  rcases a.persist with ⟨_ | _, b⟩ <;> rfl

/-- What a request that is by itself comes to in its next scope. -/
def scope (now : Instant) (p : Stage × App) : Stage × App := p.1.next now p.2

theorem scope_returned (now : Instant) (result : Except AppError Reply) (a : App) (n : Nat) :
    (scope now)^[n] (.returned result, a) = (.returned result, a) := Function.iterate_fixed rfl n

theorem alone_change (h : StoresLast (fun a => a.perform now c) a) (stores : c.stores = true)
    (general : a.begin now c = a.change now c) :
    (scope now)^[4] (.fresh c, a) = (.returned (a.perform now c).1, (a.perform now c).2) := by
  rw [Function.iterate_succ_apply, scope, Stage.next, general, h.stored]
  dsimp only [change]
  rcases (a.keptIn none).perform now c with ⟨e | reply, b⟩
  · exact scope_returned now _ _ 3
  · dsimp only [thenStored]
    rw [if_pos stores]
    exact scope_returned now _ _ 2

theorem alone_control {action : Errand} {act : Runner → Timer → Runner}
    (first : a.begin now c = a.lookUp id fun t => (.copied action t, a))
    (whole : a.perform now c = replied (a.control id action.note now act) .run)
    (called : ∀ t, t.id = id → act a.runner t = a.runner.perform now (action.call t)) :
    (scope now)^[4] (.fresh c, a) = (.returned (a.perform now c).1, (a.perform now c).2) := by
  rw [Function.iterate_succ_apply, scope, Stage.next, first, whole]
  unfold lookUp control
  rcases ht : a.timer? id with _ | t
  · exact scope_returned now _ _ 3
  · obtain rfl := id_of_timer? ht
    dsimp only
    rw [called t rfl]
    exact scope_returned now _ _ 1

theorem alone_mark (a : App) (id : TimerId) (name : Option String) (now : Instant) :
    (scope now)^[4] (.fresh (.mark id name), a) =
      (.returned (a.perform now (.mark id name)).1, (a.perform now (.mark id name)).2) := by
  rw [Function.iterate_succ_apply, scope, Stage.next, begin, perform, lookUp, mark]
  rcases ht : a.timer? id with _ | t
  · exact scope_returned now _ _ 3
  · obtain rfl := id_of_timer? ht
    dsimp only [Option.elim_some]
    rw [Function.iterate_succ_apply, scope, Stage.next]
    rcases a.runner.mark a.ids t.id (lapName t.logs.length name) now with ⟨_ | lap, ids⟩
    · exact scope_returned now _ _ 2
    · -- the timer is there still when the lap is noted
      have found : App.timer? { a with ids := ids } t.id = some t := ht
      dsimp only
      rw [Function.iterate_succ_apply, scope, Stage.next, lookUp, found, replied_stored]
      rfl

theorem alone_reset (a : App) (id : TimerId) (now : Instant) :
    (scope now)^[4] (.fresh (.reset id), a) =
      (.returned (a.perform now (.reset id)).1, (a.perform now (.reset id)).2) := by
  rw [Function.iterate_succ_apply, scope, Stage.next, begin, perform, lookUp, reset]
  rcases ht : a.timer? id with _ | t
  · exact scope_returned now _ _ 3
  · obtain rfl := id_of_timer? ht
    dsimp only [Option.elim_some]
    by_cases mode : t.mode ≠ .stopwatch
    · rw [if_pos mode, if_pos mode]; exact scope_returned now _ _ 3
    · rw [if_neg mode, if_neg mode, replied_stored]; rfl

/-- A request whose scopes come in a row does what the application performs. -/
theorem alone (a : App) (now : Instant) (c : Command) :
    (scope now)^[4] (.fresh c, a) = (.returned (a.perform now c).1, (a.perform now c).2) := by
  cases c with
  | create name mode => exact alone_change ((storesLast_createTimer a name mode now).replied .timer) rfl rfl
  | update id name locked => exact alone_change ((storesLast_updateTimer a id name locked now).replied .timer) rfl rfl
  | delete id =>
    rw [Function.iterate_succ_apply, scope, Stage.next, begin, perform, lookUp, deleteTimer]
    rcases a.timer? id with _ | t
    · exact scope_returned now _ _ 3
    · dsimp only; rw [replied_stored]; rfl
  | get id =>
    show (scope now)^[3] (a.change now (.get id)) = _
    rw [change, perform, perform, getTimer, getTimer, timer?_keptIn]
    rcases a.timer? id with _ | t <;> exact scope_returned now _ _ 3
  | list => exact scope_returned now _ _ 3
  | insertStep id target kind => exact alone_change ((storesLast_editSteps a id _ now _).replied .timer) rfl rfl
  | replaceStep id step kind => exact alone_change ((storesLast_editSteps a id _ now _).replied .timer) rfl rfl
  | deleteStep id step => exact alone_change ((storesLast_editSteps a id _ now _).replied .timer) rfl rfl
  | moveStep id step target => exact alone_change ((storesLast_editSteps a id _ now _).replied .timer) rfl rfl
  | duplicateStep id step => exact alone_change ((storesLast_editSteps a id _ now _).replied .timer) rfl rfl
  | start id => exact alone_control rfl rfl fun _ _ => rfl
  | pause id => exact alone_control rfl rfl fun _ _ => rfl
  | restart id => exact alone_control rfl rfl fun _ _ => rfl
  | stop id =>
    have called (t : Timer) (ht : t.id = id) : a.runner.stop id now = a.runner.perform now (Errand.stop.call t) := by
      subst ht; rfl
    exact alone_control rfl rfl called
  | runState id =>
    rw [Function.iterate_succ_apply, scope, Stage.next, begin, perform, lookUp, runState, getTimer]
    rcases ht : a.timer? id with _ | t
    · exact scope_returned now _ _ 3
    · obtain rfl := id_of_timer? ht
      exact scope_returned now _ _ 2
  | mark id name => exact alone_mark a id name now
  | reset id => exact alone_reset a id now
  | renameLog id log name => exact alone_change ((storesLast_renameLog a id log name).replied .timer) rfl rfl
  | deleteLog id log => exact alone_change ((storesLast_editLogs a id log _).replied .timer) rfl rfl
  | persist => exact alone_change ((storesLast_persist a).replied fun _ => .done) rfl rfl

/-! ## The table of runs -/

theorem runner_change (h : StoresLast (fun a => a.perform now c) a) : (a.change now c).2.runner = a.runner := by
  rw [← h.runner, change]
  rcases (a.keptIn none).perform now c with ⟨e | reply, b⟩ <;> rfl

/-- No request calls the table of runs in its first scope. -/
theorem runner_begin (a : App) (now : Instant) (c : Command) : (a.begin now c).2.runner = a.runner := by
  cases c with
  | create name mode => exact runner_change ((storesLast_createTimer a name mode now).replied .timer)
  | update id name locked => exact runner_change ((storesLast_updateTimer a id name locked now).replied .timer)
  | get id =>
    show (a.change now (.get id)).2.runner = _
    rw [change, perform, getTimer, timer?_keptIn]
    rcases a.timer? id with _ | t <;> rfl
  | list => rfl
  | insertStep id target kind => exact runner_change ((storesLast_editSteps a id _ now _).replied .timer)
  | replaceStep id step kind => exact runner_change ((storesLast_editSteps a id _ now _).replied .timer)
  | deleteStep id step => exact runner_change ((storesLast_editSteps a id _ now _).replied .timer)
  | moveStep id step target => exact runner_change ((storesLast_editSteps a id _ now _).replied .timer)
  | duplicateStep id step => exact runner_change ((storesLast_editSteps a id _ now _).replied .timer)
  | renameLog id log name => exact runner_change ((storesLast_renameLog a id log name).replied .timer)
  | deleteLog id log => exact runner_change ((storesLast_editLogs a id log _).replied .timer)
  | persist => exact runner_change ((storesLast_persist a).replied fun _ => .done)
  | delete id | start id | pause id | restart id | stop id | runState id | mark id name =>
    rw [begin, lookUp]
    rcases a.timer? id with _ | t <;> rfl
  | reset id =>
    rw [begin, lookUp]
    rcases a.timer? id with _ | t
    · rfl
    · dsimp only [Option.elim_some]; split <;> rfl

/-- What a scope does to the table of runs. -/
theorem runner_next (a : App) (now : Instant) (g : Stage) :
    (g.next now a).2.runner = g.op?.elim a.runner (a.runner.perform now) := by
  cases g with
  | fresh c => exact runner_begin a now c
  | marking name t =>
    rw [Stage.next]
    rcases a.runner.mark a.ids t.id (lapName t.logs.length name) now with ⟨_ | lap, ids⟩ <;> rfl
  | lapped id lap =>
    rw [Stage.next, lookUp]
    rcases a.timer? id with _ | t <;> rfl
  | storing reply => rw [Stage.next, stored_snd]; rfl
  | copied | reading | removed | cleared | returned => rfl

/-! ## Names -/

/-- A timer that is not there and whose name is not given again does not come with a change. -/
theorem Change.absent {timers' : List Timer} {ids : IdSource} (change : Change a c timers' ids)
    (absent : a.timer? id = none) (fresh : a.ids.Fresh [id]) : timers'.find? (fun t => t.id = id) = none := by
  cases change with
  | kept => exact absent
  | spent => exact absent
  | @created requested name mode free =>
    have new : a.ids.next.1 ≠ id := fun h => fresh.next_not_mem (List.mem_singleton.2 h)
    rw [List.find?_append, show a.timers.find? (fun t => t.id = id) = none from absent]
    simpa using new
  | @updated requested locked t u found named =>
    refine absent_replace ?_ absent
    rw [← (renamed?_eq named).1]
    rcases locked with _ | l <;> rfl
  | removed id' =>
    rw [List.find?_filter, List.find?_eq_none]
    have none := List.find?_eq_none.1 absent
    exact fun t ht => by simpa using fun _ => none t ht
  | edited c found unlocked whole => exact absent_replace rfl absent
  | lapped c found named => exact absent_replace rfl absent
  | relogged c found sub => exact absent_replace rfl absent

/-- What a request does to the registry in its first scope is one change. -/
theorem change_begin (a : App) (now : Instant) (c : Command) :
    Change (a.keptIn none) c (a.begin now c).2.timers (a.begin now c).2.ids := by
  have general : Change (a.keptIn none) c (a.change now c).2.timers (a.change now c).2.ids := by
    have whole := change_perform (a.keptIn none) now c
    unfold change
    generalize (a.keptIn none).perform now c = outcome at whole ⊢
    rcases outcome with ⟨e | reply, b⟩ <;> exact whole
  cases c with
  | delete id =>
    rw [begin, lookUp]
    rcases a.timer? id with _ | t
    · exact .kept _
    · exact .removed id
  | reset id =>
    rw [begin, lookUp]
    rcases ht : a.timer? id with _ | t
    · exact .kept _
    · dsimp only [Option.elim_some]
      split
      · exact .kept _
      · exact .relogged (t := t) _ (timer?_self ht) (List.nil_sublist _)
  | start id | pause id | restart id | stop id | runState id | mark id name =>
    rw [begin, lookUp]
    rcases a.timer? id with _ | t <;> exact .kept _
  | _ => exact general

/-- A request takes no name with it in its first scope but one of the registry. -/
theorem names_begin (a : App) (now : Instant) (c : Command) : ∀ x ∈ (a.begin now c).1.names, x ∈ namesIn a.timers := by
  have general : ∀ x ∈ (a.change now c).1.names, x ∈ namesIn a.timers := by
    unfold change
    rcases (a.keptIn none).perform now c with ⟨e | reply, b⟩
    · exact fun x hx => by cases hx
    · intro x hx
      dsimp only at hx
      split at hx <;> cases hx
  cases c with
  | delete id =>
    rw [begin, lookUp]
    rcases ht : a.timer? id with _ | t
    · exact fun x hx => by cases hx
    · intro x hx
      obtain rfl := List.mem_singleton.1 hx
      rw [← id_of_timer? ht]
      exact namesIn_subset_of_mem (List.mem_of_find?_eq_some ht) _ (List.mem_cons_self ..)
  | reset id =>
    rw [begin, lookUp]
    rcases a.timer? id with _ | t
    · exact fun x hx => by cases hx
    · intro x hx
      dsimp only [Option.elim_some] at hx
      split at hx <;> cases hx
  | start id | pause id | restart id | stop id | runState id | mark id name =>
    rw [begin, lookUp]
    rcases a.timer? id with _ | t <;> exact fun x hx => by cases hx
  | _ => exact general

/-- The source stays fresh for the names of the registry, for those that a request has taken with it, and for all
other ones that it was fresh for. -/
theorem fresh_next (a : App) (now : Instant) (g : Stage) (used : List String)
    (fresh : a.ids.Fresh (namesIn a.timers ++ (g.names ++ used))) :
    (g.next now a).2.ids.Fresh (namesIn (g.next now a).2.timers ++ ((g.next now a).1.names ++ used)) := by
  have dropped : a.ids.Fresh (namesIn a.timers ++ used) := fresh.mono fun x hx => by
    simp only [List.mem_append] at hx ⊢; tauto
  cases g with
  | fresh c =>
    have taken := names_begin a now c
    refine ((change_begin a now c).fresh (namesIn a.timers ++ used) (fresh.mono fun x hx => ?_)).mono fun x hx => ?_
    · simp only [List.mem_append, namesIn, keptIn] at hx ⊢; tauto
    · have old := taken x
      simp only [Stage.next, List.mem_append] at hx ⊢; tauto
  | marking name t =>
    rw [Stage.next]
    rcases marked : a.runner.mark a.ids t.id (lapName t.logs.length name) now with ⟨_ | lap, ids⟩
    · exact dropped
    · obtain ⟨named, rfl⟩ := named_of_mark marked
      refine dropped.next.mono fun x hx => ?_
      simp only [Stage.names, named, List.mem_append, List.mem_cons, List.not_mem_nil, or_false] at hx ⊢; tauto
  | lapped id lap =>
    rw [Stage.next, lookUp]
    rcases ht : a.timer? id with _ | t
    · exact dropped
    · refine fresh.mono fun x hx => ?_
      have new := namesIn_replace t.id { t with logs := t.logs ++ [lap] } a.timers x
      have old := namesIn_subset_of_mem (List.mem_of_find?_eq_some ht) x
      simp only [Stage.names, Option.elim_some, record, setTimer, modifyTimer, Timer.namesIn, List.map_append,
        List.map_cons, List.map_nil, List.mem_append, List.mem_cons, List.not_mem_nil, or_false] at hx new old ⊢
      tauto
  | storing reply => rw [Stage.next, timers_stored, ids_stored]; exact dropped
  | copied | reading | removed | cleared | returned => exact dropped

/-- A timer that is not there and whose name is not given again does not come in a scope. -/
theorem absent_next (now : Instant) (g : Stage) (absent : a.timer? id = none) (fresh : a.ids.Fresh [id]) :
    (g.next now a).2.timer? id = none := by
  cases g with
  | fresh c => exact (change_begin a now c).absent absent fresh
  | marking name t =>
    rw [Stage.next]
    rcases a.runner.mark a.ids t.id (lapName t.logs.length name) now with ⟨_ | lap, ids⟩ <;> exact absent
  | lapped id' lap =>
    rw [Stage.next, lookUp]
    rcases ht : a.timer? id' with _ | t
    · exact absent
    · exact absent_replace rfl absent
  | storing reply => rw [Stage.next, timer?, timers_stored]; exact absent
  | copied | reading | removed | cleared | returned => exact absent

/-! ## What comes next -/

theorem op?_change (a : App) (now : Instant) (c : Command) : (a.change now c).1.op? = none := by
  unfold change
  rcases (a.keptIn none).perform now c with ⟨e | reply, b⟩
  · rfl
  · dsimp only; split <;> rfl

theorem timer?_removeTimer (a : App) (id : TimerId) : (a.removeTimer id).timer? id = none := by
  unfold timer? removeTimer
  rw [List.find?_filter, List.find?_eq_none]
  intro t _
  simp

/-- A request that is about to call the table of runs has seen the timer in the registry; if it is about to have it
forgotten, then it has taken it out. -/
theorem op?_begin (a : App) (now : Instant) (c : Command) {op : Op} (h : (a.begin now c).1.op? = some op) :
    ∃ t, a.timer? t.id = some t ∧ op.about? = some t.id ∧ (op = .forget t.id → (a.begin now c).2.timer? t.id = none) := by
  cases c with
  | start id | pause id | restart id | stop id =>
    rw [begin, lookUp] at h
    rcases ht : a.timer? id with _ | t <;> rw [ht] at h <;> cases h
    exact ⟨t, timer?_self ht, rfl, fun h => by cases h⟩
  | delete id =>
    rw [begin, lookUp] at h ⊢
    rcases ht : a.timer? id with _ | t <;> rw [ht] at h <;> cases h
    obtain rfl := id_of_timer? ht
    exact ⟨t, ht, rfl, fun _ => timer?_removeTimer a t.id⟩
  | reset id =>
    rw [begin, lookUp] at h
    rcases ht : a.timer? id with _ | t <;> rw [ht] at h
    · cases h
    · dsimp only [Option.elim_some] at h
      split at h <;> cases h
      exact ⟨t, timer?_self ht, rfl, fun h => by cases h⟩
  | runState id | mark id name =>
    rw [begin, lookUp] at h
    rcases ht : a.timer? id with _ | t <;> rw [ht] at h <;> cases h
  | _ =>
    simp only [begin, op?_change] at h
    cases h

theorem op?_next (a : App) (now : Instant) (g : Stage) {op : Op} (h : (g.next now a).1.op? = some op) :
    ∃ t, a.timer? t.id = some t ∧ op.about? = some t.id ∧ (op = .forget t.id → (g.next now a).2.timer? t.id = none) := by
  cases g with
  | fresh c => exact op?_begin a now c h
  | lapped id lap =>
    rw [Stage.next, lookUp] at h
    rcases ht : a.timer? id with _ | t <;> rw [ht] at h <;> cases h
  | marking name t =>
    rw [Stage.next] at h
    rcases hm : a.runner.mark a.ids t.id (lapName t.logs.length name) now with ⟨_ | lap, ids⟩ <;> rw [hm] at h <;> cases h
  | copied | reading | removed | cleared | storing | returned => cases h

end App

end StepTimer
