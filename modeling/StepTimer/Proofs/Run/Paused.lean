/-
Paused timers. Without a call a timer that is paused stays so, with its run alive, or its run comes to its
end and the timer is idle and completed: the end of a run looks at its abort and at its generation, and not
at the pause. Which of the two it is hangs on what the pause finds: a run in which something is left that the
pause holds back (`Activity.outlasts`) is held until a call comes.
-/
import StepTimer.Proofs.Engine.Outlast
import StepTimer.Proofs.Run.Isolation
import StepTimer.Proofs.Run.Muffled

namespace StepTimer

namespace Runner

open World (Beat)

/-- The timer is paused in a run, which is in the table and was not aborted. -/
structure IsPausedIn (r : Runner) (id : TimerId) (run : RunId) : Prop where
  entry : ∃ e, r.entry? id = some e ∧ e.status = .paused ∧ e.token = some run
  run : ∃ x, r.run? run = some x ∧ x.timer = id ∧ x.signals.aborted = false ∧ x.signals.paused = true

/-- The timer is idle, and the run that it was in has left the table and was completed. -/
structure HasCompleted (r : Runner) (id : TimerId) (run : RunId) : Prop where
  entry : ∃ e, r.entry? id = some e ∧ e.status = .idle ∧ e.token = none ∧ e.activeStepId = none ∧
    e.remainingMs = none ∧ e.lastOutcome = some .completed
  run : r.run? run = none

variable {r r' : Runner} {now : Instant} {id : TimerId} {run run' : RunId} {coin : Bool} {events : List Event}

instance : Decidable (r.IsPausedIn id run) :=
  decidable_of_iff ((r.entry? id).any (fun e => e.status = .paused ∧ e.token = some run) = true ∧
      (r.run? run).any (fun x => x.timer = id ∧ x.signals.aborted = false ∧ x.signals.paused = true) = true) <| by
    simp only [Option.any_eq_true, decide_eq_true_eq]
    exact ⟨fun h => ⟨h.1, h.2⟩, fun h => ⟨h.entry, h.run⟩⟩

instance : Decidable (r.HasCompleted id run) :=
  decidable_of_iff ((r.entry? id).any (fun e => e.status = .idle ∧ e.token = none ∧ e.activeStepId = none ∧
      e.remainingMs = none ∧ e.lastOutcome = some .completed) = true ∧ (r.run? run).isNone = true) <| by
    simp only [Option.any_eq_true, decide_eq_true_eq, Option.isNone_iff_eq_none]
    exact ⟨fun h => ⟨h.1, h.2⟩, fun h => ⟨h.entry, h.run⟩⟩

/-! ## Moves -/

/-- A move of a run that the entry of a timer does not hold leaves the entry alone. -/
theorem entry?_advance_of_stale (ht : r.Tied) (hne : r.token? id ≠ some run')
    (ha : r.advance run' coin now = some (r', events)) : r'.entry? id = r.entry? id := by
  obtain ⟨x, hx, -⟩ := advance_cases r now ha
  obtain rfl := id_of_run? r hx
  by_cases hid : x.timer = id
  · subst hid
    have spent := (spent_of_stale ht hx hne).live
    exact congrArg (fun l => l.lookup x.timer) (advance_of_aborted now spent ha).1
  · exact (spares_advance hx ha).entries id (Ne.symm hid)

/-- Reports change the position in an entry, and nothing else. -/
theorem entry?_apply (now : Instant) (x : Run) (m : Move) {e : RunEntry} (he : r.entry? id = some e) :
    ∃ e', Runner.entry? (r.apply x now m) id = some e' ∧ e'.status = e.status ∧ e'.token = e.token := by
  refine apply_induction r now x m (P := fun r' => ∃ e', r'.entry? id = some e' ∧ e'.status = e.status ∧
    e'.token = e.token) ⟨e, he, rfl, rfl⟩ fun r' step remaining _ hr => ?_
  obtain ⟨e', he', hs, htok⟩ := hr
  rw [entry?_report]
  split
  next h =>
    rw [← h.2, he']
    refine ⟨_, rfl, ?_, by rw [RunEntry.token_reported]; exact htok⟩
    rw [← hs]; simp only [RunEntry.reported]; split <;> rfl
  next => exact ⟨e', he', hs, htok⟩

/-- A move leaves a paused timer paused, unless it is the end of its run: then the timer is completed. -/
theorem IsPausedIn.advance (h : r.IsPausedIn id run) (ht : r.Tied) (ha : r.advance run' coin now = some (r', events)) :
    r'.IsPausedIn id run ∨ r'.HasCompleted id run := by
  obtain ⟨e, he, hs, htok⟩ := h.entry
  obtain ⟨x, hx, htimer, hlive, hpaused⟩ := h.run
  by_cases hrun : run' = run
  · subst hrun
    obtain rfl := id_of_run? r hx
    obtain ⟨x', hx', hcase⟩ := advance_cases r now ha
    rw [hx] at hx'; cases hx'
    rcases hcase with ⟨-, rfl, -⟩ | ⟨-, m, -, rfl, -⟩
    · refine .inr ⟨⟨e.finished x.generation, ?_, ?_⟩, by rw [run?_finish, if_pos rfl]⟩
      · rw [entry?_finish, if_pos ⟨hlive, htimer.symm⟩, htimer, he]; rfl
      · obtain ⟨e', he', -, generation⟩ := ht.entry_of_live hx hlive
        rw [htimer, he] at he'; cases he'
        rw [RunEntry.finished, if_pos generation]
        exact ⟨rfl, rfl, rfl, rfl, rfl⟩
    · obtain ⟨e', he', hs', htok'⟩ := entry?_apply now x m he
      refine .inl ⟨⟨e', he', hs'.trans hs, htok'.trans htok⟩, ?_⟩
      rw [run?_apply, if_pos rfl, hx]
      exact ⟨_, rfl, htimer, hlive, hpaused⟩
  · have stale : r.token? id ≠ some run' := by
      rw [r.token?_of_entry? he htok]; exact fun h => hrun (Option.some.inj h).symm
    refine .inl ⟨⟨e, by rw [entry?_advance_of_stale ht stale ha]; exact he, hs, htok⟩, x, ?_, htimer, hlive, hpaused⟩
    rw [run?_advance_ne r now run' ha (Ne.symm hrun)]; exact hx

theorem HasCompleted.advance (h : r.HasCompleted id run) (ht : r.Tied)
    (ha : r.advance run' coin now = some (r', events)) : r'.HasCompleted id run := by
  obtain ⟨e, he, hs, htok, rest⟩ := h.entry
  have stale : r.token? id ≠ some run' := by
    unfold token?; rw [he, Option.bind_some, htok]; exact fun h => by cases h
  obtain ⟨x, hx, -⟩ := advance_cases r now ha
  have hne : run ≠ run' := by rintro rfl; rw [h.run] at hx; cases hx
  refine ⟨⟨e, by rw [entry?_advance_of_stale ht stale ha]; exact he, hs, htok, rest⟩, ?_⟩
  rw [run?_advance_ne r now run' ha hne]; exact h.run

theorem IsPausedIn.wake (h : r.IsPausedIn id run) (run' : RunId) : (r.wake run').IsPausedIn id run := by
  obtain ⟨x, hx, hrun⟩ := h.run
  refine ⟨h.entry, ?_⟩
  rw [run?_wake]
  split
  next heq => subst heq; rw [hx]; exact ⟨_, rfl, hrun⟩
  next => exact ⟨x, hx, hrun⟩

theorem HasCompleted.wake (h : r.HasCompleted id run) (run' : RunId) : (r.wake run').HasCompleted id run := by
  refine ⟨h.entry, ?_⟩
  rw [run?_wake]
  split
  next heq => subst heq; rw [h.run]; rfl
  next => exact h.run

/-! ## Runs that outlast the pause -/

/-- No alert that a run is in has been dismissed, and nothing that is not up yet. -/
structure Unanswered (r : Runner) (run : RunId) : Prop where
  shown : ∀ n ∈ r.devices.board.dismissed, n < r.devices.board.shown
  up : ∀ x, r.run? run = some x → ∀ n ∈ x.activity.notices, n ∉ r.devices.board.dismissed

theorem Unanswered.wake (h : r.Unanswered run) (run' : RunId) : (r.wake run').Unanswered run := by
  refine ⟨h.shown, fun y hy => ?_⟩
  obtain ⟨x, hx, rfl | rfl⟩ := run_of_wake r hy
  · exact h.up y hx
  · show ∀ n ∈ x.activity.wake.notices, _
    rw [Activity.notices_wake]
    exact h.up x hx

/-- No move dismisses anything: what a run puts up is new. -/
theorem Unanswered.advance (h : r.Unanswered run) (ha : r.advance run' coin now = some (r', events)) :
    r'.Unanswered run := by
  obtain ⟨y, hy, ⟨-, hgone, hd, -⟩ | ⟨m, hm, hnext, hd, -⟩⟩ := run?_advance_self ha
  · refine ⟨by rw [hd]; exact h.shown, fun x hx => ?_⟩
    have hne : run ≠ run' := by rintro rfl; rw [hgone] at hx; cases hx
    rw [run?_advance_ne r now run' ha hne] at hx
    rw [hd]
    exact h.up x hx
  · have posts := Activity.notices_advance hm
    refine ⟨fun n hn => ?_, fun x hx n hn => ?_⟩ <;> rw [hd] at *
    · rw [posts.dismissed] at hn
      exact Nat.lt_of_lt_of_le (h.shown n hn) posts.shown
    · rw [posts.dismissed]
      by_cases hne : run = run'
      · subst hne
        rw [hnext] at hx; cases hx
        rcases posts.added n hn with hn | ⟨hnew, -⟩
        · exact h.up y hy n hn
        · exact fun hmem => absurd (h.shown n hmem) (Nat.not_lt.2 hnew)
      · rw [run?_advance_ne r now run' ha hne] at hx
        exact h.up x hx n hn

/-- A timer is paused in a run in which something is left that the pause holds back; and the run has no sound that
was not cut, and no alert that was dismissed where none may be. -/
structure Outlasts (r : Runner) (dismissible : Bool) (id : TimerId) (run : RunId) (now : Instant) : Prop where
  tied : r.Tied
  paused : r.IsPausedIn id run
  muffled : r.MuffledIfPaused run
  unanswered : dismissible = false → r.Unanswered run
  left : ∀ x, r.run? run = some x → x.activity.outlasts dismissible now = true

variable {dismissible : Bool}

theorem Outlasts.wake (h : r.Outlasts dismissible id run now) (run' : RunId) :
    (r.wake run').Outlasts dismissible id run now := by
  refine ⟨h.tied.modifyActivity run' Activity.wake, h.paused.wake run', h.muffled.wake run',
    fun hb => (h.unanswered hb).wake run', fun y hy => ?_⟩
  obtain ⟨x, hx, rfl | rfl⟩ := run_of_wake r hy
  · exact h.left y hx
  · show x.activity.wake.outlasts dismissible now = true
    rw [Activity.outlasts_wake]; exact h.left x hx

/-- What is known of a run that outlasts the pause when its turn comes. -/
theorem Outlasts.exists_run (h : r.Outlasts dismissible id run now) :
    ∃ x, r.run? run = some x ∧ x.signals.aborted = false ∧ x.signals.paused = true ∧
      (∀ call, x.activity.call? = some call → r.devices.channel.isCut call.number = true) ∧
      (dismissible = false → ∀ n ∈ x.activity.notices, n ∉ r.devices.board.dismissed) ∧
      x.activity.outlasts dismissible now = true := by
  obtain ⟨x, hx, -, hlive, hpaused⟩ := h.paused.run
  exact ⟨x, hx, hlive, hpaused, (h.muffled x hx hpaused hlive).cut hpaused hlive,
    fun hb => (h.unanswered hb).up x hx, h.left x hx⟩

/-- A run that is paused and outlasts the pause does so after every move of any run; and no move is its end. -/
theorem Outlasts.advance (h : r.Outlasts dismissible id run now)
    (ha : r.advance run' coin now = some (r', events)) : r'.Outlasts dismissible id run now := by
  obtain ⟨x, hx, hlive, hpaused, cut, up, left⟩ := h.exists_run
  suffices goesOn : ∃ y, r'.run? run = some y ∧ y.activity.outlasts dismissible now = true by
    obtain ⟨y, hy, hleft⟩ := goesOn
    refine ⟨h.tied.advance now ha, ?_, h.muffled.advance ha, fun hb => (h.unanswered hb).advance ha, fun z hz => ?_⟩
    · refine (h.paused.advance h.tied ha).resolve_right fun ended => ?_
      rw [ended.run] at hy; cases hy
    · rw [hy] at hz; cases hz
      exact hleft
  by_cases hrun : run' = run
  · subst hrun
    obtain ⟨y, hy, hcase⟩ := run?_advance_self ha
    rw [hx] at hy; cases hy
    rcases hcase with ⟨hd, -⟩ | ⟨m, hm, hnext, -⟩
    · rw [Activity.not_isDone_of_outlasts left] at hd; cases hd
    · exact ⟨_, hnext, Activity.outlasts_advance hpaused hlive cut up hm left⟩
  · exact ⟨x, by rw [run?_advance_ne r now run' ha (Ne.symm hrun)]; exact hx, left⟩

/-- Time passes when no run can go on; a paused run that outlasts the pause is then held. -/
theorem Outlasts.pass (h : r.Outlasts dismissible id run now) (hidle : r.Idle now) (now' : Instant) :
    r.Outlasts dismissible id run now' := by
  refine ⟨h.tied, h.paused, h.muffled, h.unanswered, fun y hy => ?_⟩
  obtain ⟨x, hx, -, hpaused, cut, up, left⟩ := h.exists_run
  rw [hx] at hy; cases hy
  have rest := (hidle run y hx).2 true
  rw [advance_eq_map r now hx (Activity.not_isDone_of_outlasts left), Option.map_eq_none_iff] at rest
  exact Activity.outlasts_pass (c := r.circumstances y now true) hpaused cut up rest left now'

end Runner

namespace World

open Runner (Op)

variable {w w' : World} {id : TimerId} {run : RunId} {modes : TimerId → TimerMode}

/-- Calls that use each timer in one mode. -/
def InModes (modes : TimerId → TimerMode) (op : Op) : Prop := ∀ t, op.timer? = some t → t.mode = modes t.id

/-- A timer with steps that is paused is so in a run. -/
theorem Sound.isPausedIn (h : w.Sound modes) (hm : modes id ≠ .stopwatch) {e : RunEntry}
    (he : w.runner.entry? id = some e) (hs : e.status = .paused) :
    ∃ run, e.token = some run ∧ w.runner.IsPausedIn id run := by
  obtain ⟨run, signals, htok, hsig, hlive, hpaused⟩ := ((h.entries.follows hm he).status_iff true).1 hs
  obtain ⟨x, hx, rfl⟩ := Option.map_eq_some_iff.1 hsig
  obtain ⟨x', hx', -, htimer⟩ := h.tied.run_of_token (w.runner.token?_of_entry? he htok)
  rw [hx] at hx'; cases hx'
  exact ⟨run, htok, ⟨e, he, hs, htok⟩, x, hx, htimer, hlive, hpaused⟩

/-- Without calls a paused timer stays so or is completed. -/
theorem paused_step (ht : w.runner.Tied) (h : w.runner.IsPausedIn id run ∨ w.runner.HasCompleted id run)
    (hs : World.Step (fun _ => False) w w') : w'.runner.IsPausedIn id run ∨ w'.runner.HasCompleted id run := by
  cases hs with
  | call op hop => exact hop.elim
  | move run' coin ha => exact h.elim (·.advance ht ha) fun ended => .inr (ended.advance ht ha)
  | wake run' => exact h.imp (·.wake run') (·.wake run')
  | dismiss notices => exact h.imp (fun h => ⟨h.entry, h.run⟩) fun h => ⟨h.entry, h.run⟩
  | pass t hle => exact h

/-- A paused timer whose run outlasts the pause stays so, and so does the run. -/
theorem outlasts_beat {dismissible : Bool} (h : w.runner.Outlasts dismissible id run w.now)
    (hb : Beat (fun _ => False) w w') (up : dismissible = false → w'.runner.Unanswered run) :
    w'.runner.Outlasts dismissible id run w'.now := by
  cases hb with
  | call op hop => exact hop.elim
  | poll run' hp =>
    exact Runner.Moves.induction (P := fun r => r.Outlasts dismissible id run w.now)
      (fun r r' coin events hr ha => hr.advance ha) hp (h.wake run')
  | dismiss notices => exact ⟨⟨h.tied.held, h.tied.fresh⟩, ⟨h.paused.entry, h.paused.run⟩, h.muffled, up, h.left⟩
  | pass t hle hidle halarms => exact h.pass hidle t

/-- Steps on the virtual clock without calls, in which no alert that a run is in is dismissed. -/
abbrev Unanswering (run : RunId) : World → World → Prop :=
  Relation.ReflTransGen fun w w' => Beat (fun _ => False) w w' ∧ w'.runner.Unanswered run

/-- A timer with steps that is paused, when no call comes any more, whatever the runs do, whatever is dismissed
and however much time passes: it stays paused in its run, which stays in the table and is not aborted, or its
run comes to its end, and the timer is idle and completed. On the virtual clock it stays paused if something is
left in its run that the pause holds back whatever is dismissed, and if no alert that the run is in is dismissed,
it stays paused if something is left that the pause then holds back. -/
theorem paused_without_calls (hw : w.Reached (InModes modes)) (hm : modes id ≠ .stopwatch) {e : RunEntry}
    (he : w.runner.entry? id = some e) (hs : e.status = .paused) :
    ∃ run x, e.token = some run ∧ w.runner.run? run = some x ∧
      (∀ w', Later (fun _ => False) w w' → w'.runner.IsPausedIn id run ∨ w'.runner.HasCompleted id run) ∧
      (w.TickedBy (InModes modes) →
        (x.activity.outlasts true w.now = true →
          ∀ w', Beats (fun _ => False) w w' → w'.runner.IsPausedIn id run) ∧
        (x.activity.outlasts false w.now = true → w.runner.Unanswered run →
          ∀ w', Unanswering run w w' → w'.runner.IsPausedIn id run)) := by
  have sound : w.Sound modes := hw.induction sound_initial fun _ _ h hs => hs.sound h
  obtain ⟨run, htok, paused⟩ := sound.isPausedIn hm he hs
  obtain ⟨x, hx, -⟩ := paused.run
  refine ⟨run, x, htok, hx, fun w' later => ?_, fun hticked => ?_⟩
  · suffices h : w'.runner.Tied ∧ (w'.runner.IsPausedIn id run ∨ w'.runner.HasCompleted id run) from h.2
    induction later with
    | refl => exact ⟨sound.tied, .inl paused⟩
    | tail _ step ih => exact ⟨Step.tied ih.1 step, paused_step ih.1 ih.2 step⟩
  · have outlasts {dismissible : Bool} (left : x.activity.outlasts dismissible w.now = true)
        (unanswered : dismissible = false → w.runner.Unanswered run) :
        w.runner.Outlasts dismissible id run w.now :=
      ⟨sound.tied, paused, fun y hy _ _ => hticked.ticked.muffled run y hy, unanswered,
        fun y hy => by rw [hx] at hy; cases hy; exact left⟩
    refine ⟨fun left w' later => ?_, fun left unanswered w' later => ?_⟩
    · suffices h : w'.runner.Outlasts true id run w'.now from h.paused
      induction later with
      | refl => exact outlasts left fun hb => by cases hb
      | tail _ beat ih => exact outlasts_beat ih beat fun hb => by cases hb
    · suffices h : w'.runner.Outlasts false id run w'.now from h.paused
      induction later with
      | refl => exact outlasts left fun _ => unanswered
      | tail _ beat ih => exact outlasts_beat ih beat.1 fun _ => beat.2

/-- A timer that was started, had its turn, and was paused some milliseconds later. -/
def pausedAfter (equipment : Equipment) (t : Timer) (ms : Nat) : World :=
  ((((initial equipment ⟨0⟩).perform (.start t)).turned 1 8).passed ms).perform (.pause t)

theorem tickedBy_pausedAfter {equipment : Equipment} {t : Timer} {ms : Nat} (hm : t.mode = .sequence)
    (hturn : ∀ coin, ((((initial equipment ⟨0⟩).perform (.start t)).turned 1 8).runner.advance 1 coin ⟨0⟩).isNone = true)
    (hpass : Beat (InModes fun _ => .sequence) (((initial equipment ⟨0⟩).perform (.start t)).turned 1 8)
      ((((initial equipment ⟨0⟩).perform (.start t)).turned 1 8).passed ms)) :
    TickedBy (InModes fun _ => .sequence) (pausedAfter equipment t ms) := by
  refine ⟨equipment, ⟨0⟩, .tail (.tail (.tail (.single (.call (.start t) ?_)) (beat_turned hturn)) hpass)
    (.call (.pause t) ?_)⟩ <;>
  · rintro _ ⟨⟩
    exact hm

/-- A screen that shows every notification, after some milliseconds. -/
def screen (ms : Nat) : Notifier := ⟨fun _ => ⟨.granted, some 0⟩, fun _ => { delayMs := some ms }⟩

/-- A timer that only waits, for a minute. -/
def nap : Timer := { id := "nap", name := "Nap", steps := [.leaf "sleep" (.wait (.ofNat 1) .minutes)] }

/-- The wait has begun and is paused. -/
def napPaused : World := pausedAfter ⟨fun _ _ => .endless, .off, "", fun _ => ⟨0⟩⟩ nap 0

/-- The alert is up and is paused. -/
def ringPaused : World := pausedAfter ⟨fun _ _ => .endless, screen 0, "", fun _ => ⟨0⟩⟩ eggs 0

/-- The pause has been seen, and an hour has passed. -/
def anHourLater (w : World) : World := (w.turned 1 8).passed 3600000

theorem unanswered_of_nil {r : Runner} (h : r.devices.board.dismissed = []) : r.Unanswered run :=
  ⟨by simp [h], by simp [h]⟩

theorem tickedBy_napPaused : TickedBy (InModes fun _ => .sequence) napPaused :=
  tickedBy_pausedAfter rfl (by decide +kernel) (beat_passed (by decide +kernel) (by decide +kernel))

theorem tickedBy_ringPaused : TickedBy (InModes fun _ => .sequence) ringPaused :=
  tickedBy_pausedAfter rfl (by decide +kernel) (beat_passed (by decide +kernel) (by decide +kernel))

theorem paused_without_calls_nap :
    Beats (fun _ => False) napPaused napPaused.anHourLater ∧ napPaused.anHourLater.runner.IsPausedIn "nap" 1 ∧
      Unanswering 1 ringPaused ringPaused.anHourLater ∧ ringPaused.anHourLater.runner.IsPausedIn "eggs" 1 := by
  have napSeen : Beat (fun _ => False) napPaused (napPaused.turned 1 8) := beat_turned (by decide +kernel)
  have napLater : Beat (fun _ => False) (napPaused.turned 1 8) napPaused.anHourLater :=
    beat_passed (by decide +kernel) (by decide +kernel)
  have ringSeen : Beat (fun _ => False) ringPaused (ringPaused.turned 1 8) := beat_turned (by decide +kernel)
  have ringLater : Beat (fun _ => False) (ringPaused.turned 1 8) ringPaused.anHourLater :=
    beat_passed (by decide +kernel) (by decide +kernel)
  have unanswering : Unanswering 1 ringPaused ringPaused.anHourLater :=
    .tail (.single ⟨ringSeen, unanswered_of_nil (by decide +kernel)⟩) ⟨ringLater, unanswered_of_nil (by decide +kernel)⟩
  have hnap : napPaused.runner.entry? "nap" = some _ := rfl
  have hring : ringPaused.runner.entry? "eggs" = some _ := rfl
  obtain ⟨run, x, htok, hx, -, stays⟩ := paused_without_calls tickedBy_napPaused.reached (by decide) hnap rfl
  obtain ⟨run', x', htok', hx', -, stays'⟩ := paused_without_calls tickedBy_ringPaused.reached (by decide) hring rfl
  cases htok
  cases hx
  cases htok'
  cases hx'
  exact ⟨.tail (.single napSeen) napLater,
    (stays tickedBy_napPaused).1 (by decide +kernel) _ (.tail (.single napSeen) napLater), unanswering,
    (stays' tickedBy_ringPaused).2 (by decide +kernel) (unanswered_of_nil (by decide +kernel)) _ unanswering⟩

/-! ## Runs that end while they are paused -/

/-- A timer comes to its end while it is paused, by steps of a kind. -/
def EndsPaused (steps : World → World → Prop) (t : Timer) : Prop :=
  ∃ w w', TickedBy (InModes fun _ => .sequence) w ∧ w.runner.IsPausedIn t.id 1 ∧ steps w w' ∧
    w'.runner.HasCompleted t.id 1

theorem unanswering_turned {w : World} {n : Nat}
    (h : ∀ coin, ((w.turned 1 n).runner.advance 1 coin w.now).isNone = true)
    (hd : (w.turned 1 n).runner.devices.board.dismissed = []) : Unanswering 1 w (w.turned 1 n) :=
  .single ⟨beat_turned h, unanswered_of_nil hd⟩

/-- A timer whose end has come at the instant of the pause. -/
theorem endsPaused_of_turned (equipment : Equipment) {t : Timer} (ms : Nat)
    (hw : TickedBy (InModes fun _ => .sequence) (pausedAfter equipment t ms))
    (paused : (pausedAfter equipment t ms).runner.IsPausedIn t.id 1)
    (steps : Unanswering 1 (pausedAfter equipment t ms) ((pausedAfter equipment t ms).turned 1 8))
    (completed : ((pausedAfter equipment t ms).turned 1 8).runner.HasCompleted t.id 1) :
    EndsPaused (Unanswering 1) t :=
  ⟨_, _, hw, paused, steps, completed⟩

/-- The pause has been seen, and then the notification was dismissed. -/
def ringDismissed : World :=
  { ringPaused.turned 1 8 with runner := (ringPaused.turned 1 8).runner.dismissed [0] }

/-- An alert that is dismissed is over, also while it is paused. -/
theorem endsPaused_eggs : EndsPaused (Beats fun _ => False) eggs := by
  have seen : Beat (fun _ => False) ringPaused (ringPaused.turned 1 8) := beat_turned (by decide +kernel)
  have rung : Beat (fun _ => False) ringDismissed (ringDismissed.turned 1 8) := beat_turned (by decide +kernel)
  exact ⟨ringPaused, _, tickedBy_ringPaused, by decide +kernel,
    .tail (.tail (.single seen) (.dismiss [0])) rung, by decide +kernel⟩

/-- A step that shows a notification. -/
def memo : Timer := { id := "memo", name := "Memo", steps := [.leaf "note" (.notify "Bread" none)] }

/-- The notification takes 100 milliseconds, and its step is paused after 50. -/
def memoPaused : World := pausedAfter ⟨fun _ _ => .endless, screen 100, "", fun _ => ⟨0⟩⟩ memo 50

/-- A notification that is on its way is waited for, also while its step is paused. -/
theorem endsPaused_memo : EndsPaused (Unanswering 1) memo := by
  have sent : TickedBy (InModes fun _ => .sequence) memoPaused :=
    tickedBy_pausedAfter rfl (by decide +kernel) (beat_passed (by decide +kernel) (by decide +kernel))
  have waited : Beat (fun _ => False) memoPaused (memoPaused.passed 50) :=
    beat_passed (by decide +kernel) (by decide +kernel)
  have shown : Unanswering 1 (memoPaused.passed 50) ((memoPaused.passed 50).turned 1 8) :=
    unanswering_turned (by decide +kernel) (by decide +kernel)
  exact ⟨memoPaused, _, sent, by decide +kernel, .head ⟨waited, unanswered_of_nil (by decide +kernel)⟩ shown,
    by decide +kernel⟩

/-- A wait of 100 milliseconds, when it begins so shortly before midnight. -/
def midnight : Timer := { id := "midnight", name := "Midnight", steps := [.leaf "wait" (.waitUntil "12:00" .am)] }

theorem endsPaused_midnight : EndsPaused (Unanswering 1) midnight :=
  endsPaused_of_turned ⟨fun _ _ => .endless, .off, "", fun _ => ⟨86399900⟩⟩ 100
    (tickedBy_pausedAfter rfl (by decide +kernel) (beat_passed (by decide +kernel) (by decide +kernel)))
    (by decide +kernel)
    (unanswering_turned (by decide +kernel) (by decide +kernel)) (by decide +kernel)

/-- A sound of 100 milliseconds. -/
def ping : Timer := { id := "ping", name := "Ping", steps := [.leaf "ping" (.playSound {})] }

theorem endsPaused_ping : EndsPaused (Unanswering 1) ping :=
  endsPaused_of_turned ⟨fun _ _ => .lasts 100, .off, "", fun _ => ⟨0⟩⟩ 100
    (tickedBy_pausedAfter rfl (by decide +kernel) (beat_passed (by decide +kernel) (by decide +kernel)))
    (by decide +kernel)
    (unanswering_turned (by decide +kernel) (by decide +kernel)) (by decide +kernel)

/-- An alert of 100 milliseconds. -/
def beep : Timer :=
  { id := "beep", name := "Beep",
    steps := [.block "beep" (.notifyUntil { title := "Beep", timeoutMs := some 100 }) []] }

theorem endsPaused_beep : EndsPaused (Unanswering 1) beep :=
  endsPaused_of_turned ⟨fun _ _ => .endless, screen 0, "", fun _ => ⟨0⟩⟩ 100
    (tickedBy_pausedAfter rfl (by decide +kernel) (beat_passed (by decide +kernel) (by decide +kernel)))
    (by decide +kernel)
    (unanswering_turned (by decide +kernel) (by decide +kernel)) (by decide +kernel)

/-- Not every timer that is paused stays so until a call comes. In its last step an alert that is dismissed leaves
it idle and completed, and so does, with nothing dismissed, a notification that is on its way, and a wait, a
sound or an alert whose end had come when it was paused. -/
theorem completed_while_paused :
    (¬ ∀ w, TickedBy (InModes fun _ => .sequence) w → ∀ id e, w.runner.entry? id = some e → e.status = .paused →
      ∀ w', Beats (fun _ => False) w w' → ∃ e', w'.runner.entry? id = some e' ∧ e'.status = .paused) ∧
    EndsPaused (Beats fun _ => False) eggs ∧ EndsPaused (Unanswering 1) memo ∧
      EndsPaused (Unanswering 1) midnight ∧ EndsPaused (Unanswering 1) ping ∧ EndsPaused (Unanswering 1) beep := by
  refine ⟨fun all => ?_, endsPaused_eggs, endsPaused_memo, endsPaused_midnight, endsPaused_ping, endsPaused_beep⟩
  obtain ⟨w, w', hw, paused, steps, completed⟩ := endsPaused_eggs
  obtain ⟨e, he, hs, -⟩ := paused.entry
  obtain ⟨e', he', hs'⟩ := all w hw _ e he hs w' steps
  obtain ⟨e'', he'', hs'', -⟩ := completed.entry
  rw [he'] at he''; cases he''
  rw [hs'] at hs''
  cases hs''

end World

end StepTimer
