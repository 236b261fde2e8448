/-
What is heard of a run after a stop, when calls and runs are on several threads. A stop aborts the run under the lock
of the table, and silences its sound when the lock is free again; and a run reads its signals one by one, each in a
step of its own, before it acts on what it has seen. So a sound step can take the slot of the channel on what it saw
before the stop, when the stop has already looked into the slot: it rushes. That is the only order of things in which
anything is heard of the run again (`stop_silences_iff`).
-/
import StepTimer.Proofs.Run.Generations
import StepTimer.Proofs.Run.Owned
import StepTimer.Proofs.Engine.Sounding

namespace StepTimer

namespace Runner

/-- What a scope does while it has the lock of the table: a stop and a pause silence the channel only when the lock is
free again. -/
def locked (r : Runner) (now : Instant) : Scope → Runner
  | .stop id => (r.signalAny (r.token? id) fun s => { s with aborted := true }).update id now fun e => e.stopped now
  | .pause t =>
    if t.mode = .stopwatch then r.update t.id now fun e => e.pauseWatch now
    else
      (r.signalAny ((r.entry? t.id).bind (·.pausable)) fun s => { s with paused := true }).update t.id now
        RunEntry.paused
  | s => r.enter now s

/-- The run whose sound a scope silences when the lock is free again. -/
def silencedBy (r : Runner) : Scope → Option RunId
  | .stop id => r.token? id
  | .pause t => if t.mode = .stopwatch then none else (r.entry? t.id).bind (·.pausable)
  | _ => none

variable (r : Runner) (now : Instant) (s : Scope) (run : RunId)

theorem enter_eq_silenceAny : r.enter now s = (r.locked now s).silenceAny (r.silencedBy s) := by
  cases s with
  | pause t =>
    show r.pause t now = _
    by_cases h : t.mode = .stopwatch
    · simp only [pause, locked, silencedBy, if_pos h]
      rfl
    · simp only [pause, locked, silencedBy, if_neg h]
  | _ => rfl

theorem run?_locked : (r.locked now s).run? run = (r.enter now s).run? run := by
  rw [enter_eq_silenceAny, run?_silenceAny]

theorem nextRun_le_locked : r.nextRun ≤ (r.locked now s).nextRun := by
  have same : (r.locked now s).nextRun = (r.enter now s).nextRun := by rw [enter_eq_silenceAny, nextRun_silenceAny]
  rw [same]
  cases s with
  | begin t => exact Nat.le_succ _
  | _ => exact (heirs_enter (by simp)).nextRun

theorem cuts_locked : Cuts r.devices (r.locked now s).devices := by
  cases s with
  | stop id =>
    simp only [locked, devices_update, devices_signalAny]
    exact .refl _
  | zero id =>
    simp only [locked, enter, devices_update]
    exact .refl _
  | drop id =>
    simp only [locked, enter, devices_drop]
    exact .refl _
  | begin t => exact cuts_beginRun r now t
  | resume id => exact cuts_resume r now id
  | pause t =>
    simp only [locked]
    split <;> simp only [devices_update, devices_signalAny] <;> exact .refl _
  | watch id again => exact .refl _
  | hush => exact cuts_hush r.devices

/-- A scope leaves the runs of the table as they are but for their signals, and begins at most one. -/
theorem kin_locked : Kin (r.run? run) ((r.locked now s).run? run) ∨
    run = r.nextRun ∧ (r.locked now s).nextRun = r.nextRun + 1 := by
  rw [run?_locked]
  cases s with
  | stop id => exact .inl (kin_stop r now run id)
  | zero id =>
    refine .inl ?_
    show Kin _ ((r.update id now _).run? run)
    rw [run?_update]
    exact .refl _
  | drop id =>
    refine .inl ?_
    show Kin _ ((r.drop id now).run? run)
    rw [run?_drop]
    exact .refl _
  | begin t =>
    by_cases hrun : r.nextRun = run
    · exact .inr ⟨hrun.symm, rfl⟩
    · exact .inl (kin_beginRun_of_ne r now run t hrun)
  | resume id => exact .inl (kin_resume r now run id)
  | pause t => exact .inl (kin_pause r now run t)
  | watch id again => exact .inl (.refl _)
  | hush => exact .inl (.refl _)

/-! ### What a run says -/

variable {r now run} {x y : Run} {word : Word} {run' : RunId}

theorem run_of_leave (h : (r.leave run').run? run = some y) : r.run? run = some y := by
  rw [run?_leave] at h
  split at h
  · cases h
  · exact h

theorem run_of_hear (h : (r.hear x now word).run? run = some y) : r.run? run = some y := by
  cases word with
  | report step remaining => rwa [hear, run?_update] at h
  | through =>
    rw [hear, run?_update] at h
    exact run_of_leave h

variable (r x now word)

theorem nextRun_hear : (r.hear x now word).nextRun = r.nextRun := by
  cases word <;> simp [hear, leave]

theorem devices_hear : (r.hear x now word).devices = r.devices := by
  cases word <;> simp [hear, leave]

end Runner

/-- What a run has seen of its signals since its last move. -/
structure Glance where
  paused : Option Bool := none
  aborted : Option Bool := none

/-- What a run takes its signals to be: what it has seen of them, and what they are when it has not looked. -/
def Glance.signals (glance : Glance) (s : Signals) : Signals :=
  { aborted := glance.aborted.getD s.aborted, paused := glance.paused.getD s.paused }

/-- A look at one of the signals. -/
inductive Glance.Look (glance : Glance) (s : Signals) : Glance → Prop
  | paused : Look glance s { glance with paused := some s.paused }
  | aborted : Look glance s { glance with aborted := some s.aborted }

theorem Glance.Look.live {glance glance' : Glance} {s : Signals} (h : glance.Look s glance')
    (live : glance'.aborted = some false) : glance.aborted = some false ∨ s.aborted = false := by
  cases h with
  | paused => exact .inl live
  | aborted => exact .inr (Option.some.inj live)

/-- A race in which runs may look at their signals before they act, and then act on what they have seen. -/
structure Rush extends Race where
  seen : RunId → Glance

namespace Rush

open Runner (Scope)

/-- No run has looked at its signals. -/
def ofRace (w : Race) : Rush := { w with seen := fun _ => {} }

/-- A run has moved: it looks anew before its next move. -/
def acted (w : Rush) (x : Run) (m : Move) : Rush :=
  { runner := w.runner.moved x m
    words := Function.update w.words x.id (m.events.filterMap Event.word?)
    cleared := w.cleared
    seen := Function.update w.seen x.id {} }

/-- What happens next. What a run has to say is said as in a race. -/
inductive Step (w : Rush) : Rush → Prop
  | scope (now : Instant) (s : Scope) : Step w { w with runner := w.runner.locked now s }
  /-- A call that has left its scope silences a run, as an alert does that is over. -/
  | silence (run : RunId) : Step w { w with runner := w.runner.silence run }
  | look {x : Run} {glance : Glance} (hx : w.runner.run? x.id = some x) (quiet : w.Quiet x.id)
      (goesOn : x.activity.isDone = false) (h : (w.seen x.id).Look x.signals glance) :
      Step w { w with seen := Function.update w.seen x.id glance }
  /-- A run moves on what it has seen of its signals, which may have changed since then. -/
  | act (now : Instant) (coin : Bool) {x : Run} {m : Move} (hx : w.runner.run? x.id = some x) (quiet : w.Quiet x.id)
      (hm : x.activity.advance { w.runner.circumstances x now coin with signals := (w.seen x.id).signals x.signals }
        w.runner.devices = some m) : Step w (w.acted x m)
  | clear {x : Run} {word : Word} {rest : List Word} (hx : w.runner.run? x.id = some x)
      (next : w.words x.id = word :: rest) (silent : w.cleared x.id = none) (live : x.signals.aborted = false) :
      Step w { w with
        words := Function.update w.words x.id rest, cleared := Function.update w.cleared x.id (some word) }
  | mute {x : Run} {word : Word} {rest : List Word} (hx : w.runner.run? x.id = some x)
      (next : w.words x.id = word :: rest) (silent : w.cleared x.id = none) (aborted : x.signals.aborted = true) :
      Step w { w with words := Function.update w.words x.id rest }
  | conclude {x : Run} (hx : w.runner.run? x.id = some x) (quiet : w.Quiet x.id) (done : x.activity.isDone = true)
      (live : x.signals.aborted = false) :
      Step w { w with
        cleared := Function.update w.cleared x.id (some .through), seen := Function.update w.seen x.id {} }
  | leave {x : Run} (hx : w.runner.run? x.id = some x) (quiet : w.Quiet x.id) (done : x.activity.isDone = true)
      (aborted : x.signals.aborted = true) : Step w { w with runner := w.runner.leave x.id }
  | say (now : Instant) {x : Run} {word : Word} (hx : w.runner.run? x.id = some x)
      (cleared : w.cleared x.id = some word) :
      Step w { w with
        runner := w.runner.hear x now word, cleared := Function.update w.cleared x.id none }
  /-- A run whose turn comes looks anew. -/
  | wake (run : RunId) : Step w { w with runner := w.runner.wake run, seen := Function.update w.seen run {} }
  | dismiss (notices : List Nat) : Step w { w with runner := w.runner.dismissed notices }

/-- What any number of steps leads to. -/
abbrev Later : Rush → Rush → Prop := Relation.ReflTransGen Step

/-- What an empty table leads to. -/
def Reached (w : Rush) : Prop := ∃ equipment, Later (ofRace (.ofRunner { equipment })) w

theorem Reached.later {w w' : Rush} (h : Reached w) (later : Later w w') : Reached w' := by
  obtain ⟨equipment, h⟩ := h
  exact ⟨equipment, h.trans later⟩

/-- Whatever happens when no run looks before it acts. -/
theorem later_of_race {w w' : Race} (h : Race.Later (fun _ => True) w w') : Later (ofRace w) (ofRace w') := by
  have blank (run : RunId) : Function.update (fun _ => ({} : Glance)) run {} = fun _ => {} :=
    Function.update_eq_self run _
  induction h with
  | refl => exact .refl
  | @tail v _ _ step ih =>
    refine ih.trans ?_
    cases step with
    | scope now s =>
      rw [Runner.enter_eq_silenceAny]
      refine .head (.scope now s) ?_
      cases v.runner.silencedBy s with
      | none => exact .refl
      | some run => exact .single (.silence run)
    | @move now coin x m hx quiet goesOn hm =>
      have step : Step (ofRace v) ((ofRace v).acted x m) := .act now coin hx quiet hm
      unfold acted at step
      rw [show Function.update (ofRace v).seen x.id {} = fun _ => {} from blank x.id] at step
      exact .single step
    | clear hx next silent live => exact .single (.clear hx next silent live)
    | mute hx next silent aborted => exact .single (.mute hx next silent aborted)
    | @conclude x hx quiet done live =>
      have step : Step (ofRace v) _ := .conclude hx quiet done live
      rw [show Function.update (ofRace v).seen x.id {} = fun _ => {} from blank x.id] at step
      exact .single step
    | leave hx quiet done aborted => exact .single (.leave hx quiet done aborted)
    | say now hx cleared => exact .single (.say now hx cleared)
    | wake run =>
      have step : Step (ofRace v) _ := .wake run
      rw [show Function.update (ofRace v).seen run {} = fun _ => {} from blank run] at step
      exact .single step
    | dismiss notices => exact .single (.dismiss notices)

/-! ## What a step can do to a run -/

variable {w w' w₂ : Rush} {run : RunId} {now : Instant}

/-- A step that is none of a run. It may tell the run something or wake it, and the run may look at its signals. -/
structure Spares (w w' : Rush) (run : RunId) : Prop where
  runs : (∀ x', w'.runner.run? run = some x' → ∃ x, w.runner.run? run = some x ∧
      (x.signals.aborted = true → x'.signals.aborted = true) ∧
      (x'.activity = x.activity ∨ x'.activity = x.activity.wake)) ∨
    run = w.runner.nextRun ∧ w'.runner.nextRun = w.runner.nextRun + 1
  nextRun : w.runner.nextRun ≤ w'.runner.nextRun
  glance : (w'.seen run).aborted = some false →
    (w.seen run).aborted = some false ∨ ∃ x, w.runner.run? run = some x ∧ x.signals.aborted = false
  slot : ∀ p, w'.runner.devices.channel.current = some p → p.owner = run →
    w.runner.devices.channel.current = some p

/-- A run moves on what it has seen. -/
structure Acts (w w' : Rush) (x : Run) (c : Circumstances) (m : Move) : Prop where
  here : w.runner.run? x.id = some x
  seen : c.signals = (w.seen x.id).signals x.signals
  owner : c.owner = x.id
  move : x.activity.advance c w.runner.devices = some m
  eq : w' = w.acted x m

theorem Acts.moved {x : Run} {c : Circumstances} {m : Move} (h : w.Acts w' x c m) :
    w'.runner.run? x.id = some { x with activity := m.next } := by
  rw [h.eq]
  refine (w.runner.run?_moved x m x.id).trans ?_
  rw [if_pos rfl, h.here]
  rfl

theorem Acts.blank {x : Run} {c : Circumstances} {m : Move} (h : w.Acts w' x c m) : w'.seen x.id = {} := by
  rw [h.eq]
  exact Function.update_self ..

/-- What is seen when the glance of a run has become blank was seen by another one. -/
theorem looked_of_update {seen : RunId → Glance} {run' : RunId} (h : Function.update seen run' {} run ≠ {}) :
    run ≠ run' ∧ seen run ≠ {} := by
  by_cases hrun : run = run'
  · subst hrun
    exact absurd (Function.update_self ..) h
  · rw [Function.update_of_ne hrun] at h
    exact ⟨hrun, h⟩

theorem live_of_update {seen : RunId → Glance} {run' : RunId}
    (h : (Function.update seen run' {} run).aborted = some false) : (seen run).aborted = some false := by
  have looked : Function.update seen run' {} run ≠ {} := by
    intro blank
    rw [blank] at h
    cases h
  rwa [Function.update_of_ne (looked_of_update looked).1] at h

theorem spares_of_same (same : ∀ x', w'.runner.run? run = some x' → w.runner.run? run = some x')
    (next : w'.runner.nextRun = w.runner.nextRun)
    (glance : (w'.seen run).aborted = some false →
      (w.seen run).aborted = some false ∨ ∃ x, w.runner.run? run = some x ∧ x.signals.aborted = false)
    (slot : ∀ p, w'.runner.devices.channel.current = some p → p.owner = run →
      w.runner.devices.channel.current = some p) : w.Spares w' run :=
  ⟨.inl fun x' hx' => ⟨x', same x' hx', fun h => h, .inl rfl⟩, Nat.le_of_eq next.symm, glance, slot⟩

/-- A step spares a run, or is its own. -/
theorem Step.spares_or_acts (hs : Step w w') (run : RunId) :
    w.Spares w' run ∨ ∃ x c m, x.id = run ∧ w.Acts w' x c m := by
  cases hs with
  | scope now s =>
    refine .inl ⟨?_, w.runner.nextRun_le_locked now s, .inl, fun p hp _ => (w.runner.cuts_locked now s).slot p hp⟩
    refine (w.runner.kin_locked now s run).imp_left fun kin x' hx' => ?_
    rw [hx'] at kin
    obtain ⟨x, hx, hk⟩ := kin.of_some
    exact ⟨x, hx, hk.aborted, .inl hk.activity⟩
  | silence run' =>
    exact .inl (spares_of_same (fun _ hx => hx) rfl .inl fun p hp _ => (Runner.cuts_silence w.runner run').slot p hp)
  | @look x glance hx quiet goesOn h =>
    refine .inl (spares_of_same (fun _ hx => hx) rfl (fun live => ?_) fun _ hp _ => hp)
    by_cases hrun : run = x.id
    · subst hrun
      refine (h.live ?_).imp_right fun live => ⟨x, hx, live⟩
      simpa using live
    · exact .inl (by simpa [Function.update_of_ne hrun] using live)
  | @act now coin x m hx quiet hm =>
    by_cases hrun : run = x.id
    · exact .inr ⟨x, _, m, hrun.symm, hx, rfl, rfl, hm, rfl⟩
    · refine .inl (spares_of_same (fun x' hx' => ?_) rfl (fun live => .inl (live_of_update live)) fun p hp ho => ?_)
      · have same := w.runner.run?_moved x m run
        rw [if_neg hrun] at same
        exact same.symm.trans hx'
      · -- what another run does adds no sound of this one
        exact (Activity.advance_call hm).slot_other hp fun own => hrun (ho.symm.trans own)
  | clear | mute | dismiss => exact .inl (spares_of_same (fun _ hx => hx) rfl .inl fun _ hp _ => hp)
  | conclude =>
    exact .inl (spares_of_same (fun _ hx => hx) rfl (fun live => .inl (live_of_update live)) fun _ hp _ => hp)
  | leave => exact .inl (spares_of_same (fun _ => Runner.run_of_leave) rfl .inl fun _ hp _ => hp)
  | say now =>
    refine .inl (spares_of_same (fun _ => Runner.run_of_hear) (Runner.nextRun_hear ..) .inl fun p hp _ => ?_)
    rwa [Runner.devices_hear] at hp
  | wake run' =>
    refine .inl ⟨.inl fun x' hx' => ?_, Nat.le_refl _, fun live => .inl (live_of_update live), fun p hp _ => hp⟩
    obtain ⟨x, hx, rfl | rfl⟩ := Runner.run_of_wake w.runner hx'
    · exact ⟨x', hx, fun h => h, .inl rfl⟩
    · exact ⟨x, hx, fun h => h, .inr rfl⟩

theorem Reached.given (h : Reached w) {x : Run} (hx : w.runner.run? run = some x) : run < w.runner.nextRun := by
  obtain ⟨equipment, later⟩ := h
  induction later generalizing x with
  | refl => cases hx
  | tail _ step ih =>
    rcases step.spares_or_acts run with spares | ⟨y, c, m, rfl, acts⟩
    · rcases spares.runs with runs | ⟨new, next⟩
      · obtain ⟨y, hy, -⟩ := runs x hx
        exact Nat.lt_of_lt_of_le (ih hy) spares.nextRun
      · rw [next, new]
        exact Nat.lt_succ_self _
    · rw [acts.eq]
      exact ih acts.here

theorem quiet_of_same (h : w.Quiet run) (words : w'.words run = w.words run)
    (cleared : w'.cleared run = w.cleared run) : w'.Quiet run :=
  ⟨words.trans h.words, cleared.trans h.cleared⟩

theorem ne_of_next {run' : RunId} {word : Word} {rest : List Word} (h : w.Quiet run)
    (next : w.words run' = word :: rest) : run ≠ run' := by
  rintro rfl
  rw [h.words] at next
  cases next

/-- A run that has looked has nothing to say: it looked when all was said, and has done nothing since. -/
theorem Step.quiet (hs : Step w w') (quiet : w.seen run ≠ {} → w.Quiet run) (looked : w'.seen run ≠ {}) :
    w'.Quiet run := by
  cases hs with
  | scope | silence | leave | dismiss => exact quiet_of_same (quiet looked) rfl rfl
  | @look x glance hx quiet' =>
    by_cases hrun : run = x.id
    · exact hrun ▸ quiet'
    · have before : w.seen run ≠ {} := by simpa [Function.update_of_ne hrun] using looked
      exact quiet_of_same (quiet before) rfl rfl
  | @act now coin x m hx =>
    obtain ⟨other, before⟩ := looked_of_update looked
    exact quiet_of_same (quiet before) (Function.update_of_ne other ..) rfl
  | @conclude x hx =>
    obtain ⟨other, before⟩ := looked_of_update looked
    exact quiet_of_same (quiet before) rfl (Function.update_of_ne other ..)
  | wake => exact quiet_of_same (quiet (looked_of_update looked).2) rfl rfl
  | @clear x word rest hx next =>
    have other := ne_of_next (quiet looked) next
    exact quiet_of_same (quiet looked) (Function.update_of_ne other ..) (Function.update_of_ne other ..)
  | @mute x word rest hx next =>
    have other := ne_of_next (quiet looked) next
    exact quiet_of_same (quiet looked) (Function.update_of_ne other ..) rfl
  | @say now x word hx cleared =>
    have other : run ≠ x.id := by
      rintro rfl
      rw [(quiet looked).cleared] at cleared
      cases cleared
    exact quiet_of_same (quiet looked) rfl (Function.update_of_ne other ..)

theorem Reached.quiet (h : Reached w) (looked : w.seen run ≠ {}) : w.Quiet run := by
  obtain ⟨equipment, later⟩ := h
  induction later with
  | refl => exact ⟨rfl, rfl⟩
  | tail _ step ih => exact step.quiet ih looked

/-! ## Runs that are stopped in a sound step -/

/-- A run is aborted. It may not have seen that yet, but then it is in a sound step. -/
structure Doomed (w : Rush) (run : RunId) : Prop where
  given : run < w.runner.nextRun
  aborted : ∀ x, w.runner.run? run = some x → x.signals.aborted = true
  guarded : ∀ x, w.runner.run? run = some x → x.activity.isGuarded = true
  blind : (w.seen run).aborted = some false → ∀ x, w.runner.run? run = some x →
    ∃ phase, x.activity.soundStep? = some phase

/-- A run has seen that it is not aborted, and all that is left of its sound step is to take the slot. -/
def Rushes (w : Rush) (run : RunId) : Prop :=
  (w.seen run).aborted = some false ∧ ∃ x, w.runner.run? run = some x ∧ x.activity.soundStep? = some .begin

/-- What a spared run was before. -/
theorem Doomed.of_spares (h : w.Doomed run) (spares : w.Spares w' run) {x' : Run}
    (hx' : w'.runner.run? run = some x') : ∃ x, w.runner.run? run = some x ∧
      (x.signals.aborted = true → x'.signals.aborted = true) ∧
      (x'.activity = x.activity ∨ x'.activity = x.activity.wake) := by
  rcases spares.runs with runs | ⟨new, -⟩
  · exact runs x' hx'
  · exact absurd new (Nat.ne_of_lt h.given)

/-- A doomed run that is spared sees no live signals. -/
theorem Doomed.live_of_spares (h : w.Doomed run) (spares : w.Spares w' run)
    (live : (w'.seen run).aborted = some false) : (w.seen run).aborted = some false := by
  refine (spares.glance live).resolve_right ?_
  rintro ⟨x, hx, live⟩
  rw [h.aborted x hx] at live
  cases live

theorem soundStep?_of_spared {a a' : Activity} (h : a' = a ∨ a' = a.wake) : a'.soundStep? = a.soundStep? := by
  rcases h with rfl | rfl
  · rfl
  · exact a.soundStep?_wake

/-- What a doomed run takes its abort to be when it acts. -/
theorem Doomed.acts_cases {x : Run} {c : Circumstances} {m : Move} (h : w.Doomed x.id) (acts : w.Acts w' x c m) :
    c.signals.aborted = true ∨
      (w.seen x.id).aborted = some false ∧ ∃ phase, x.activity.soundStep? = some phase := by
  have aborted := h.aborted x acts.here
  rw [acts.seen]
  cases seen : (w.seen x.id).aborted with
  | none => exact .inl (by simp [Glance.signals, seen, aborted])
  | some b =>
    cases b with
    | true => exact .inl (by simp [Glance.signals, seen])
    | false => exact .inr ⟨rfl, h.blind seen x acts.here⟩

theorem Doomed.step (h : w.Doomed run) (hs : Step w w') : w'.Doomed run := by
  rcases hs.spares_or_acts run with spares | ⟨x, c, m, rfl, acts⟩
  · constructor
    case given => exact Nat.lt_of_lt_of_le h.given spares.nextRun
    case aborted =>
      intro x' hx'
      obtain ⟨x, hx, aborted, -⟩ := h.of_spares spares hx'
      exact aborted (h.aborted x hx)
    case guarded =>
      intro x' hx'
      obtain ⟨x, hx, -, same | woken⟩ := h.of_spares spares hx'
      · rw [same]; exact h.guarded x hx
      · rw [woken]; exact Activity.isGuarded_wake (h.guarded x hx)
    case blind =>
      intro live x' hx'
      obtain ⟨x, hx, -, activity⟩ := h.of_spares spares hx'
      rw [soundStep?_of_spared activity]
      exact h.blind (h.live_of_spares spares live) x hx
  · have guarded : m.next.isGuarded = true := by
      rcases h.acts_cases acts with aborted | ⟨-, phase, inSound⟩
      · exact (Activity.windsDown_advance aborted (h.guarded x acts.here) acts.move).guarded
      · exact (Activity.advance_soundStep inSound acts.move).1
    constructor
    case given => rw [acts.eq]; exact h.given
    case aborted =>
      intro x' hx'
      rw [acts.moved] at hx'
      cases hx'
      exact h.aborted x acts.here
    case guarded =>
      intro x' hx'
      rw [acts.moved] at hx'
      cases hx'
      exact guarded
    case blind =>
      intro live
      rw [acts.blank] at live
      cases live

/-- A doomed run does not come to rush. -/
theorem Doomed.not_rushes (h : w.Doomed run) (hs : Step w w') (calm : ¬ w.Rushes run) : ¬ w'.Rushes run := by
  rintro ⟨live, x', hx', inSound⟩
  rcases hs.spares_or_acts run with spares | ⟨x, c, m, rfl, acts⟩
  · obtain ⟨x, hx, -, activity⟩ := h.of_spares spares hx'
    rw [soundStep?_of_spared activity] at inSound
    exact calm ⟨h.live_of_spares spares live, x, hx, inSound⟩
  · rw [acts.blank] at live
    cases live

/-- One that does not rush brings nothing into the slot. -/
theorem Doomed.not_sounds (h : w.Doomed run) (hs : Step w w') (calm : ¬ w.Rushes run)
    (silent : ¬ w.runner.Sounds run) : ¬ w'.runner.Sounds run := by
  rintro ⟨p, hp, ho⟩
  rcases hs.spares_or_acts run with spares | ⟨x, c, m, rfl, acts⟩
  · exact silent ⟨p, spares.slot p hp ho, ho⟩
  · rw [acts.eq] at hp
    have before : w.runner.devices.channel.current = some p := by
      rcases h.acts_cases acts with aborted | ⟨live, phase, inSound⟩
      · exact (Activity.advance_call acts.move).slot_of_aborted (h.guarded x acts.here) aborted hp
      · refine (Activity.advance_soundStep inSound acts.move).2 ?_ p hp
        rintro rfl
        exact calm ⟨live, x, acts.here, inSound⟩
    exact silent ⟨p, before, ho⟩

/-- The race when a stop has aborted a run, and has not silenced it yet. -/
def stopping (w : Rush) (id : TimerId) (now : Instant) : Rush := { w with runner := w.runner.locked now (.stop id) }

/-- The race when the sound of a run has been silenced. -/
def silenced (w : Rush) (run : RunId) : Rush := { w with runner := w.runner.silence run }

theorem doomed_stopping {id : TimerId} {x : Run} (now : Instant) (h : w.Reached)
    (held : w.runner.token? id = some x.id) (hx : w.runner.run? x.id = some x)
    (inSound : x.activity.soundStep?.isSome) : (w.stopping id now).Doomed x.id := by
  obtain ⟨phase, inSound⟩ := Option.isSome_iff_exists.1 inSound
  have stopped : (w.stopping id now).runner.run? x.id =
      some { x with signals := { x.signals with aborted := true } } := by
    refine (w.runner.run?_locked now (.stop id) x.id).trans ((w.runner.run?_stop now id x.id).trans ?_)
    rw [if_pos held, hx]
    rfl
  constructor
  case given => exact Nat.lt_of_lt_of_le (h.given hx) (w.runner.nextRun_le_locked now _)
  case aborted =>
    intro y hy
    rw [stopped] at hy
    cases hy
    rfl
  case guarded =>
    intro y hy
    rw [stopped] at hy
    cases hy
    exact Activity.isGuarded_of_soundStep? inSound
  case blind =>
    intro _ y hy
    rw [stopped] at hy
    cases hy
    exact ⟨phase, inSound⟩

theorem not_sounds_silenced (w : Rush) (run : RunId) : ¬ (w.silenced run).runner.Sounds run := by
  rintro ⟨p, hp, ho⟩
  have slot : (w.runner.devices.channel.stopOwnedBy run).current = some p := hp
  rcases w.runner.devices.channel.stopOwnedBy_cases run with ⟨-, -, -, he⟩ | ⟨other, he⟩ <;> rw [he] at slot
  · rw [w.runner.devices.channel.current_stop] at slot
    cases slot
  · exact other p slot ho

/-- A run that rushes takes the slot. -/
theorem Rushes.sounds (h : w.Reached) (rushes : w.Rushes run) :
    ∃ w', Later w w' ∧ w'.runner.Sounds run := by
  obtain ⟨live, x, hx, inSound⟩ := rushes
  obtain rfl := Runner.id_of_run? _ hx
  have looked : w.seen x.id ≠ {} := by
    intro blank
    rw [blank] at live
    cases live
  let c : Circumstances :=
    { w.runner.circumstances x ⟨0⟩ true with signals := (w.seen x.id).signals x.signals }
  have sees : c.signals.aborted = false := by simp [c, Glance.signals, live]
  obtain ⟨m, hm, p, hp, owner⟩ := Activity.advance_of_begin (d := w.runner.devices) inSound sees rfl
  exact ⟨w.acted x m, .single (.act ⟨0⟩ true hx (h.quiet looked) hm), p, hp, owner⟩

theorem Doomed.later (h : w.Doomed run) (later : Later w w') : w'.Doomed run := by
  induction later with
  | refl => exact h
  | tail _ step ih => exact ih.step step

/-- A doomed run that does not rush when it is silenced is not heard again. -/
theorem Doomed.silent (h : w.Doomed run) (calm : ¬ w.Rushes run) (silent : ¬ w.runner.Sounds run)
    (later : Later w w') : ¬ w'.Rushes run ∧ ¬ w'.runner.Sounds run := by
  induction later with
  | refl => exact ⟨calm, silent⟩
  | tail before step ih =>
    have doomed := h.later before
    exact ⟨doomed.not_rushes step ih.1, doomed.not_sounds step ih.1 ih.2⟩

/-- A run that is stopped in a sound step has no sound in the slot any more, once the stop has silenced it, exactly if
it does not rush just then. -/
theorem stop_silences_iff {id : TimerId} {x : Run} (now : Instant) (h : w.Reached)
    (held : w.runner.token? id = some x.id) (hx : w.runner.run? x.id = some x)
    (inSound : x.activity.soundStep?.isSome) (between : Later (w.stopping id now) w₂) :
    (∀ w', Later (w₂.silenced x.id) w' → ¬ w'.runner.Sounds x.id) ↔ ¬ w₂.Rushes x.id := by
  have silence : Step w₂ (w₂.silenced x.id) := .silence x.id
  constructor
  · intro silent rushes
    have reached : w₂.Reached := h.later (.head (.scope now (.stop id)) between)
    obtain ⟨w', later, sounds⟩ := Rushes.sounds (w := w₂.silenced x.id) (reached.later (.single silence)) rushes
    exact silent w' later sounds
  · intro calm w' later
    have doomed : w₂.Doomed x.id := (doomed_stopping now h held hx inSound).later between
    exact ((doomed.step silence).silent calm (not_sounds_silenced w₂ x.id) later).2

/-- A timer that blows a horn. -/
def horn : Timer := { id := "horn", name := "Horn", steps := [.leaf "blow" (.playSound {})] }

/-- The timer was started, and its run is about to blow the horn. The player never comes to an end. -/
def hornRaised : World :=
  ((World.initial ⟨fun _ _ => .endless, .off, "", fun _ => ⟨0⟩⟩ ⟨0⟩).perform (.start horn)).goOn 1 3

/-- The run has looked whether it is aborted. -/
def hornLooked : Rush :=
  { ofRace (.ofRunner hornRaised.runner) with seen := Function.update (fun _ => {}) 1 { aborted := some false } }

theorem reached_hornRaised : (ofRace (.ofRunner hornRaised.runner)).Reached := by
  have raised : World.Later (fun _ => True) (World.initial ⟨fun _ _ => .endless, .off, "", fun _ => ⟨0⟩⟩ ⟨0⟩)
      hornRaised :=
    .head (.call (.start horn) trivial) (World.later_goOn 1 3 _)
  exact ⟨_, later_of_race (Race.later_of_history raised)⟩

theorem reached_hornLooked : hornLooked.Reached :=
  reached_hornRaised.later (.single (.look (x := ⟨1, "horn", 1, {}, .within (.sound "" true .begin) []⟩) rfl ⟨rfl, rfl⟩
    rfl .aborted))

/-- A stop that comes when the run has looked does not keep the horn from being blown, and then nothing lets the run go
on; one that comes before it has looked does. -/
theorem stop_silences_iff_horn :
    (hornLooked.Reached ∧ ∃ w', Later ((hornLooked.stopping "horn" ⟨0⟩).silenced 1) w' ∧ w'.runner.Sounds 1 ∧
        ∀ coin now, w'.runner.advance 1 coin now = none) ∧
      ∀ w', Later (((ofRace (.ofRunner hornRaised.runner)).stopping "horn" ⟨0⟩).silenced 1) w' →
        ¬ w'.runner.Sounds 1 := by
  constructor
  · let w := (hornLooked.stopping "horn" ⟨0⟩).silenced 1
    let x : Run := ⟨1, "horn", 1, { aborted := true }, .within (.sound "" true .begin) []⟩
    let m : Move := ⟨.within (.sound "" true (.playing ⟨1, "", none, false⟩)) [],
      { channel := { current := some ⟨1, 1, ""⟩, nextCall := 2 } }, [.play ""]⟩
    have blown : Step w (w.acted x m) := .act ⟨0⟩ true rfl ⟨rfl, rfl⟩ rfl
    exact ⟨reached_hornLooked, w.acted x m, .single blown, ⟨_, rfl, rfl⟩, fun coin now => rfl⟩
  · refine (stop_silences_iff (x := ⟨1, "horn", 1, {}, .within (.sound "" true .begin) []⟩) ⟨0⟩ reached_hornRaised rfl
      rfl rfl .refl).2 ?_
    rintro ⟨⟨⟩, -⟩

end Rush

end StepTimer
