/-
Runs and calls on several threads. There a run has something to say about its timer (the position in its steps, or
that it is through) in two steps: it looks whether it was aborted, outside of the lock of the table, and then it
changes the entry under the lock. Calls take that lock once or more often, and a scope of a call can come between
the two steps. A run that is not disturbed there moves as `Runner.advance` says (`later_advance`), and a call is a
number of scopes in a row (`perform_eq_enters`).
-/
import StepTimer.Proofs.Run.Kin
import Mathlib.Logic.Function.Basic

namespace StepTimer

namespace Runner

/-- What is done to the table of runs under its lock. That a stop or a pause silences the channel when the lock is
free again makes no difference to the entries. -/
inductive Scope where
  | stop (id : TimerId)
  /-- Sets the stopwatch of a timer to zero. -/
  | zero (id : TimerId)
  | drop (id : TimerId)
  /-- The run is spawned when the lock is free again: it may wait for long before its first move. -/
  | begin (t : Timer)
  | resume (id : TimerId)
  | pause (t : Timer)
  /-- Starts a stopwatch, or starts it again from zero. -/
  | watch (id : TimerId) (again : Bool)
  /-- Silences the channel. -/
  | hush

def enter (r : Runner) (now : Instant) : Scope → Runner
  | .stop id => r.stop id now
  | .zero id => r.update id now RunEntry.resetWatch
  | .drop id => r.drop id now
  | .begin t => r.beginRun t now
  | .resume id => r.resume id now
  | .pause t => r.pause t now
  | .watch id again => r.upsert id now fun e => if again then e.restartWatch now else e.startWatch now
  | .hush => { r with devices := { r.devices with channel := r.devices.channel.stop } }

/-- The table after a number of scopes. -/
def enters (r : Runner) (now : Instant) (scopes : List Scope) : Runner := scopes.foldl (fun r s => r.enter now s) r

/-- A scope that begins a timer anew or lets it go. -/
def Scope.Renews (id : TimerId) : Scope → Prop
  | begin t => t.id = id
  | watch id' _ => id' = id
  | drop id' => id' = id
  | _ => False

variable {r : Runner} {now : Instant}

/-- A call is made of scopes. -/
theorem perform_eq_enters (r : Runner) (now : Instant) (op : Op) :
    ∃ scopes, r.perform now op = r.enters now scopes := by
  cases op with
  | start t =>
    show ∃ scopes, r.start t now = _
    rcases r.start_cases now t with ⟨-, he⟩ | ⟨-, he | he | he⟩ <;> rw [he]
    · exact ⟨[.watch t.id false], rfl⟩
    · exact ⟨[.begin t], rfl⟩
    · exact ⟨[.resume t.id], rfl⟩
    · exact ⟨[], rfl⟩
  | restart t =>
    show ∃ scopes, r.restart t now = _
    rcases r.restart_cases now t with ⟨-, he⟩ | ⟨-, he⟩ <;> rw [he]
    · exact ⟨[.watch t.id true], rfl⟩
    · exact ⟨[.stop t.id, .begin t], rfl⟩
  | resume id => exact ⟨[.resume id], rfl⟩
  | pause t => exact ⟨[.pause t], rfl⟩
  | stop id => exact ⟨[.stop id], rfl⟩
  | reset id => exact ⟨[.stop id, .zero id], rfl⟩
  | mark id name => exact ⟨[], rfl⟩
  | forget id => exact ⟨[.stop id, .drop id], rfl⟩
  | stopAll =>
    refine ⟨(r.entries.map (·.1)).map .stop ++ [.hush], ?_⟩
    rw [enters, List.foldl_append, List.foldl_map]
    rfl

end Runner

/-- What a run has to say about its timer. -/
inductive Word where
  | report (step : StepId) (remaining : Option UInt64)
  /-- It is through with all steps. -/
  | through

def Event.word? : Event → Option Word
  | progress step remaining => some (.report step remaining)
  | _ => none

theorem Event.through_notMem (events : List Event) : Word.through ∉ events.filterMap Event.word? := by
  rw [List.mem_filterMap]
  rintro ⟨e, -, he⟩
  cases e <;> cases he

namespace Runner

/-- The entry is changed by what a run says, whether or not it was aborted. -/
def hear (r : Runner) (x : Run) (now : Instant) : Word → Runner
  | .report step remaining => r.update x.timer now fun e => e.reported x.generation step remaining
  | .through => (r.leave x.id).update x.timer now fun e => e.finished x.generation

variable (r : Runner) (now : Instant)

theorem finish_of_aborted {x : Run} (h : x.signals.aborted = true) : r.finish x now = r.leave x.id := if_pos h

theorem finish_of_live {x : Run} (h : x.signals.aborted = false) : r.finish x now = r.hear x now .through := by
  unfold finish
  rw [h]
  rfl

/-- What is seen of a run that was not aborted is what it says. -/
theorem apply_of_live {x : Run} {m : Move} (h : x.signals.aborted = false) :
    r.apply x now m = (m.events.filterMap Event.word?).foldl (fun r word => r.hear x now word) (r.moved x m) := by
  rw [List.foldl_filterMap]
  refine congrArg (fun f => m.events.foldl f (r.moved x m)) ?_
  funext r' e
  cases e with
  | progress step remaining =>
    show r'.report x now step remaining = _
    unfold report
    rw [h]
    rfl
  | _ => rfl

end Runner

/-- The table of runs, with what the runs are about to say. -/
structure Race where
  runner : Runner
  /-- What a run has to say before it goes on. -/
  words : RunId → List Word
  /-- The word of a run that has looked at its abort, and is about to change the entry. -/
  cleared : RunId → Option Word

namespace Race

open Runner (Scope Op)

/-- No run is about to say anything. -/
def ofRunner (r : Runner) : Race := ⟨r, fun _ => [], fun _ => none⟩

/-- A run may go on: all is said of the move before. -/
structure Quiet (w : Race) (run : RunId) : Prop where
  words : w.words run = []
  cleared : w.cleared run = none

/-- What happens next, when the scopes of the calls are all of a kind. -/
inductive Step (ok : Scope → Prop) (w : Race) : Race → Prop
  | scope (now : Instant) (s : Scope) (h : ok s) : Step ok w { w with runner := w.runner.enter now s }
  | move (now : Instant) (coin : Bool) {x : Run} {m : Move} (hx : w.runner.run? x.id = some x) (quiet : w.Quiet x.id)
      (goesOn : x.activity.isDone = false)
      (hm : x.activity.advance (w.runner.circumstances x now coin) w.runner.devices = some m) :
      Step ok w { w with
        runner := w.runner.moved x m, words := Function.update w.words x.id (m.events.filterMap Event.word?) }
  /-- A run that was not aborted is about to say its next word. -/
  | clear {x : Run} {word : Word} {rest : List Word} (hx : w.runner.run? x.id = some x)
      (next : w.words x.id = word :: rest) (silent : w.cleared x.id = none) (live : x.signals.aborted = false) :
      Step ok w { w with
        words := Function.update w.words x.id rest, cleared := Function.update w.cleared x.id (some word) }
  /-- One that was aborted drops it. -/
  | mute {x : Run} {word : Word} {rest : List Word} (hx : w.runner.run? x.id = some x)
      (next : w.words x.id = word :: rest) (silent : w.cleared x.id = none) (aborted : x.signals.aborted = true) :
      Step ok w { w with words := Function.update w.words x.id rest }
  /-- A run that is through, and was not aborted, is about to say so. -/
  | conclude {x : Run} (hx : w.runner.run? x.id = some x) (quiet : w.Quiet x.id) (done : x.activity.isDone = true)
      (live : x.signals.aborted = false) :
      Step ok w { w with cleared := Function.update w.cleared x.id (some .through) }
  | leave {x : Run} (hx : w.runner.run? x.id = some x) (quiet : w.Quiet x.id) (done : x.activity.isDone = true)
      (aborted : x.signals.aborted = true) : Step ok w { w with runner := w.runner.leave x.id }
  | say (now : Instant) {x : Run} {word : Word} (hx : w.runner.run? x.id = some x)
      (cleared : w.cleared x.id = some word) :
      Step ok w { w with
        runner := w.runner.hear x now word, cleared := Function.update w.cleared x.id none }
  | wake (run : RunId) : Step ok w { w with runner := w.runner.wake run }
  | dismiss (notices : List Nat) : Step ok w { w with runner := w.runner.dismissed notices }

/-- What any number of steps leads to. -/
abbrev Later (ok : Scope → Prop) : Race → Race → Prop := Relation.ReflTransGen (Step ok)

/-- What an empty table leads to. -/
def Reached (ok : Scope → Prop) (w : Race) : Prop := ∃ equipment, Later ok (ofRunner { equipment }) w

variable {ok : Scope → Prop} {w w' : Race} {id : TimerId} {now : Instant}

/-! ## Runs and calls that are not disturbed -/

theorem later_enters (w : Race) (now : Instant) {scopes : List Scope} (h : ∀ s ∈ scopes, ok s) :
    Later ok w { w with runner := w.runner.enters now scopes } := by
  induction scopes generalizing w with
  | nil => exact .refl
  | cons s rest ih =>
    rw [List.forall_mem_cons] at h
    exact .head (.scope now s h.1) (ih { w with runner := w.runner.enter now s } h.2)

/-- A run that was not aborted says its words one after the other. -/
theorem later_heard (now : Instant) {x : Run} (live : x.signals.aborted = false) {ws : List Word}
    (reports : Word.through ∉ ws) (hx : w.runner.run? x.id = some x) (words : w.words x.id = ws)
    (silent : w.cleared x.id = none) :
    Later ok w { w with
      runner := ws.foldl (fun r word => r.hear x now word) w.runner, words := Function.update w.words x.id [] } := by
  induction ws generalizing w with
  | nil =>
    have unchanged : Function.update w.words x.id [] = w.words := by rw [← words, Function.update_eq_self]
    rw [unchanged]
    exact .refl
  | cons word rest ih =>
    rw [List.mem_cons, not_or] at reports
    have said : (w.runner.hear x now word).run? x.id = some x := by
      cases word with
      | report step remaining => exact (w.runner.run?_update now _ _ _).trans hx
      | through => exact absurd rfl reports.1
    refine .head (.clear hx words silent live) (.head (.say now hx (Function.update_self ..)) ?_)
    rw [Function.update_idem, ← silent, Function.update_eq_self]
    have rest := ih (w := ⟨w.runner.hear x now word, Function.update w.words x.id rest, w.cleared⟩) reports.2 said
      (Function.update_self ..) silent
    rwa [Function.update_idem] at rest

/-- One that was aborted drops them. -/
theorem later_muted {x : Run} (aborted : x.signals.aborted = true) {ws : List Word}
    (hx : w.runner.run? x.id = some x) (words : w.words x.id = ws) (silent : w.cleared x.id = none) :
    Later ok w { w with words := Function.update w.words x.id [] } := by
  induction ws generalizing w with
  | nil =>
    have unchanged : Function.update w.words x.id [] = w.words := by rw [← words, Function.update_eq_self]
    rw [unchanged]
  | cons word rest ih =>
    refine .head (.mute hx words silent aborted) ?_
    have rest := ih (w := ⟨w.runner, Function.update w.words x.id rest, w.cleared⟩) hx (Function.update_self ..)
      silent
    rwa [Function.update_idem] at rest

/-- A run that is not disturbed between its steps makes its move. -/
theorem later_advance {run : RunId} {coin : Bool} {r : Runner} {events : List Event} (quiet : w.Quiet run)
    (h : w.runner.advance run coin now = some (r, events)) : Later ok w { w with runner := r } := by
  obtain ⟨x, hx, move⟩ := w.runner.advance_cases now h
  obtain rfl := Runner.id_of_run? _ hx
  rcases move with ⟨done, rfl, -⟩ | ⟨goesOn, m, hm, rfl, -⟩
  · cases ha : x.signals.aborted with
    | true =>
      rw [Runner.finish_of_aborted w.runner now ha]
      exact .single (.leave hx quiet done ha)
    | false =>
      rw [Runner.finish_of_live w.runner now ha]
      refine .tail (.single (.conclude hx quiet done ha)) ?_
      let v : Race := { w with cleared := Function.update w.cleared x.id (some .through) }
      have silent : Function.update v.cleared x.id none = w.cleared := by
        rw [Function.update_idem, ← quiet.cleared, Function.update_eq_self]
      have said : Step ok v
          { v with runner := v.runner.hear x now .through, cleared := Function.update v.cleared x.id none } :=
        .say now hx (Function.update_self ..)
      rwa [silent] at said
  · let y : Run := { x with activity := m.next }
    have hy : (w.runner.moved x m).run? y.id = some y := by rw [Runner.run?_moved, if_pos rfl, hx]; rfl
    let v : Race := ⟨w.runner.moved x m, Function.update w.words x.id (m.events.filterMap Event.word?), w.cleared⟩
    have told : Function.update v.words y.id [] = w.words := by
      rw [Function.update_idem, ← quiet.words, Function.update_eq_self]
    refine .head (b := v) (.move now coin hx quiet goesOn hm) ?_
    cases ha : x.signals.aborted with
    | true =>
      have rest : Later ok v _ := later_muted (x := y) ha hy rfl quiet.cleared
      rw [told] at rest
      rwa [Runner.apply_of_aborted w.runner now x m ha]
    | false =>
      have rest : Later ok v _ := later_heard now (x := y) ha (Event.through_notMem m.events) hy (Function.update_self ..)
        quiet.cleared
      rw [told] at rest
      rwa [Runner.apply_of_live w.runner now ha]

/-- Whatever happens when nothing comes between the two steps of a run happens here too. -/
theorem later_of_history {v v' : World} {calls : Runner.Op → Prop} (h : World.Later calls v v') :
    Later (fun _ => True) (ofRunner v.runner) (ofRunner v'.runner) := by
  induction h with
  | refl => exact .refl
  | @tail u _ _ step ih =>
    refine ih.trans ?_
    cases step with
    | call op =>
      obtain ⟨scopes, hs⟩ := u.runner.perform_eq_enters u.now op
      rw [World.perform, hs]
      exact later_enters (ofRunner u.runner) u.now fun _ _ => trivial
    | move run coin ha => exact later_advance (w := ofRunner u.runner) ⟨rfl, rfl⟩ ha
    | wake run => exact .single (.wake run)
    | dismiss notices => exact .single (.dismiss notices)
    | pass => exact .refl

end Race

end StepTimer
