/-
A paused run starts nothing: while it is paused no step becomes active and no sound begins, whatever
it is in and whatever befalls it. A poll finds the run at a place where it looks at its signals before
it begins anything (`isStill`), and while they say that it is paused it stays at such places. A pause
that follows a resume before the run is polled is no exception: the run sees the pause alone.
-/
import StepTimer.Proofs.Engine.Silent
import StepTimer.Proofs.Solo.Course

namespace StepTimer

namespace Course

variable {w w' : Course}

/-- What holds of a run between its polls. -/
structure Settled (w : Course) : Prop where
  posed : w.run.activity.isPosed = true
  still : w.run.activity.isStill = true
  guarded : w.run.activity.isGuarded = true

theorem Settled.isSilent (h : w.Settled) (signals : Signals) : w.run.activity.isSilent signals = true := by
  unfold Activity.isSilent
  split
  · exact h.guarded
  · exact h.still

theorem Settled.woken (h : w.Settled) : w.woken.Settled :=
  ⟨Activity.isPosed_wake h.posed, Activity.isStill_wake h.still, Activity.isGuarded_wake h.guarded⟩

theorem Settled.of_activity_eq (h : w.Settled) (ha : w'.run.activity = w.run.activity) : w'.Settled := by
  constructor <;> rw [ha]
  · exact h.posed
  · exact h.still
  · exact h.guarded

theorem isPosed_of_moves (hm : Moves w w') (h : w.run.activity.isPosed = true) : w'.run.activity.isPosed = true :=
  hm.induction (P := fun w => w.run.activity.isPosed = true) (fun _ _ _ hp ha => Activity.isPosed_advance ha hp) h

/-- A poll ends where the run is settled. -/
theorem Settled.poll (h : w.Settled) (hm : Moves w.woken w') (hrest : ∀ coin, w'.run.advance coin = none) :
    w'.Settled := by
  have hposed := isPosed_of_moves hm h.woken.posed
  exact ⟨hposed, Activity.isStill_of_advance_eq_none (hrest true),
    Activity.isGuarded_of_advance_eq_none (hrest true) hposed⟩

theorem Settled.tick {ok : Disturbance → Prop} (h : w.Settled) (ht : Tick ok w w') : w'.Settled := by
  cases ht with
  | disturb x _ => exact h.of_activity_eq (w.activity_disturbed x)
  | poll hm hrest => exact h.poll hm hrest
  | pass ms _ _ _ => exact h.of_activity_eq (w.activity_passed ms)

/-! ## Polls of a paused run -/

/-- What some moves in a row add to a course: notes under the signals of the time. -/
structure Adds (w : Course) (notes : List Note) (w' : Course) : Prop where
  notes_eq : w'.notes = w.notes ++ notes
  signals : w'.run.signals = w.run.signals
  each : ∀ n ∈ notes, n.signals = w.run.signals

theorem Adds.trans {w'' : Course} {notes notes' : List Note} (h : Adds w notes w') (h' : Adds w' notes' w'') :
    Adds w (notes ++ notes') w'' := by
  refine ⟨by rw [h'.notes_eq, h.notes_eq, List.append_assoc], h'.signals.trans h.signals, fun n hn => ?_⟩
  rcases List.mem_append.1 hn with hn | hn
  · exact h.each n hn
  · exact (h'.each n hn).trans h.signals

theorem adds_moved (w : Course) (m : Move) :
    Adds w ((w.run.activity.sights m).map fun x => ⟨w.awake, w.run.signals, x⟩) (w.moved m) := by
  refine ⟨rfl, rfl, fun n hn => ?_⟩
  obtain ⟨x, -, rfl⟩ := List.mem_map.1 hn
  rfl

theorem exists_adds (hm : Moves w w') : ∃ notes, Adds w notes w' := by
  refine hm.induction (P := fun v => ∃ notes, Adds w notes v) ?_ ⟨[], by simp, rfl, by simp⟩
  rintro v coin m ⟨notes, h⟩ -
  exact ⟨_, h.trans (adds_moved v m)⟩

/-- A paused run that has nothing to start. -/
structure Silent (w : Course) : Prop where
  paused : w.run.signals.paused = true
  silent : w.run.activity.isSilent w.run.signals = true

theorem Silent.moved (h : w.Silent) {coin : Bool} {m : Move} (hm : w.run.advance coin = some m) :
    (w.moved m).Silent ∧ (∀ x ∈ w.run.activity.sights m, x.isStart = false) ∧
      (w.moved m).run.devices.channel.nextCall = w.run.devices.channel.nextCall := by
  obtain ⟨hnext, hquiet, hcalls⟩ :=
    Activity.isSilent_advance (c := { w.run.circumstances with coin := coin }) (Or.inr h.paused) h.silent hm
  have hact := w.run.activity.activated?_eq_none (Activity.entered?_of_isSilent hnext)
  exact ⟨⟨h.paused, hnext⟩, Activity.not_isStart_of_sights hact hquiet, hcalls⟩

/-- In the moves of a paused run nothing starts. -/
theorem Silent.moves (h : w.Silent) (hm : Moves w w') :
    ∃ notes, Adds w notes w' ∧ (∀ n ∈ notes, n.sight.isStart = false) ∧
      w'.run.devices.channel.nextCall = w.run.devices.channel.nextCall := by
  have hall : w'.Silent ∧ ∃ notes, Adds w notes w' ∧ (∀ n ∈ notes, n.sight.isStart = false) ∧
      w'.run.devices.channel.nextCall = w.run.devices.channel.nextCall := by
    refine hm.induction (P := fun v => v.Silent ∧ ∃ notes, Adds w notes v ∧ (∀ n ∈ notes, n.sight.isStart = false) ∧
      v.run.devices.channel.nextCall = w.run.devices.channel.nextCall) ?_ ⟨h, [], ⟨by simp, rfl, by simp⟩, by simp, rfl⟩
    rintro v coin m ⟨hv, notes, hadds, hnotes, hcalls⟩ ha
    obtain ⟨hnext, hsights, hcalls'⟩ := hv.moved ha
    refine ⟨hnext, _, hadds.trans (adds_moved v m), fun n hn => ?_, hcalls'.trans hcalls⟩
    rcases List.mem_append.1 hn with hn | hn
    · exact hnotes n hn
    · obtain ⟨x, hx, rfl⟩ := List.mem_map.1 hn
      exact hsights x hx
  exact hall.2

/-! ## Whole courses -/

/-- Every start that was seen so far was seen while the run was not paused. -/
def StartsAwake (w : Course) : Prop := ∀ n ∈ w.notes, n.signals.paused = true → n.sight.isStart = false

theorem StartsAwake.moves (h : w.StartsAwake) (hs : w.Settled) (hm : Moves w.woken w') : w'.StartsAwake := by
  obtain ⟨notes, hadds⟩ := exists_adds hm
  intro n hn hp
  rw [hadds.notes_eq] at hn
  rcases List.mem_append.1 hn with hn | hn
  · exact h n hn hp
  · have hpaused : w.woken.run.signals.paused = true := hadds.each n hn ▸ hp
    obtain ⟨notes', hadds', hquiet, -⟩ := Silent.moves ⟨hpaused, hs.woken.isSilent _⟩ hm
    have heq : notes = notes' := List.append_cancel_left (hadds.notes_eq.symm.trans hadds'.notes_eq)
    exact hquiet n (heq ▸ hn)

theorem StartsAwake.tick {ok : Disturbance → Prop} (h : w.StartsAwake) (hs : w.Settled) (ht : Tick ok w w') :
    w'.StartsAwake := by
  unfold StartsAwake
  cases ht with
  | disturb x _ => rw [notes_disturbed]; exact h
  | poll hm _ => exact h.moves hs hm
  | pass ms _ _ _ => rw [notes_passed]; exact h

theorem Begins.settled {steps : List StepTimer.Step} (h : w.Begins steps) : w.Settled := by
  constructor <;> rw [h.activity] <;> rfl

theorem Begins.startsAwake {steps : List StepTimer.Step} (h : w.Begins steps) : w.StartsAwake := by
  intro n hn
  rw [h.notes] at hn
  cases hn

theorem Ticks.settled {ok : Disturbance → Prop} (h : Ticks ok w w') (hs : w.Settled) (ha : w.StartsAwake) :
    w'.Settled ∧ w'.StartsAwake := by
  induction h with
  | refl => exact ⟨hs, ha⟩
  | tail _ ht ih => exact ⟨ih.1.tick ht, ih.2.tick ih.1 ht⟩

/-- A paused run stays silent. Whatever the steps of a run are, and whatever befalls it between its
polls, all that was ever seen of it at a moment at which it was paused are reports and ends: no step
became active and no sound began. A poll that finds it paused makes no call to the player; and when a
resume is followed by a pause before the run is polled, nothing is let through. -/
theorem paused_run_silent {w₀ w w' : Course} {steps : List StepTimer.Step} (h₀ : w₀.Begins steps)
    (h : Ticks (fun _ => True) w₀ w) (hm : Moves w.woken w') :
    (∀ n ∈ w'.notes, n.signals.paused = true → n.sight.isStart = false) ∧
    (w.run.signals.paused = true → w'.run.devices.channel.nextCall = w.run.devices.channel.nextCall) ∧
    ∀ w'', Moves ((w.disturbed (.control .resume)).disturbed (.control .pause)).woken w'' →
      ∃ notes, w''.notes = w.notes ++ notes ∧ ∀ n ∈ notes, n.sight.isStart = false := by
  obtain ⟨hs, ha⟩ := h.settled h₀.settled h₀.startsAwake
  refine ⟨ha.moves hs hm, fun hp => ?_, fun w'' hm'' => ?_⟩
  · have hsilent : w.woken.Silent := ⟨hp, hs.woken.isSilent _⟩
    obtain ⟨notes, -, -, hcalls⟩ := hsilent.moves hm
    exact hcalls
  · have hagain : ((w.disturbed (.control .resume)).disturbed (.control .pause)).Settled := hs.of_activity_eq rfl
    obtain ⟨notes, hadds, hquiet, -⟩ := Silent.moves ⟨rfl, hagain.woken.isSilent _⟩ hm''
    exact ⟨notes, hadds.notes_eq, hquiet⟩

/-- An alert whose step rings a bell without end, until it is dismissed or a minute is over. -/
def alarmBell : Course :=
  ⟨.ofSteps ⟨fun _ _ => .endless, .off, "bell", fun _ => ⟨0⟩⟩
    [.block "wake" (.notifyUntil { title := "Wake up", timeoutMs := some 60000 }) [.leaf "ring" (.playSound {})]], 0, []⟩

/-- The bell rings, and is then cut by a pause. -/
def alarmBellPaused : Course :=
  ((alarmBell.woken.goOn 20).disturbed (.control .pause)).disturbed (.control .silenceOwn)

/-- The poll that finds the bell cut by the pause shows the cut and nothing else. -/
theorem paused_run_silent_alarmBell :
    alarmBellPaused.run.signals.paused = true ∧ (alarmBellPaused.run.activity.call?).isSome = true ∧
      (alarmBellPaused.woken.goOn 20).notes.length = alarmBellPaused.notes.length + 1 ∧
      ∀ n ∈ (alarmBellPaused.woken.goOn 20).notes, n.signals.paused = true → n.sight.isStart = false := by
  have hbegins : alarmBell.Begins _ := ⟨rfl, rfl, rfl⟩
  have hrings : Ticks (fun _ => True) alarmBell (alarmBell.woken.goOn 20) :=
    .single (.poll (moves_goOn 20 _) fun coin => by cases coin <;> rfl)
  have hpaused : Ticks (fun _ => True) alarmBell alarmBellPaused :=
    (hrings.tail (.disturb (.control .pause) trivial)).tail (.disturb (.control .silenceOwn) trivial)
  exact ⟨rfl, rfl, rfl, (paused_run_silent hbegins hpaused (moves_goOn 20 _)).1⟩

end Course

end StepTimer
