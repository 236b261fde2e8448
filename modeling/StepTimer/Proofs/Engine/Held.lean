/-
What a step is held up by at an instant. A wait, an alert that has time left and an endless loop last for
some time whatever comes (`lasts`); a sound does when its player takes time for it, as long as nothing cuts
it (`sounds`). While a run shares the channel with no other, neither is lost by a move of it.
-/
import StepTimer.Proofs.Engine.Overdue

namespace StepTimer

/-- What is known of the sounds: addresses whose sound always takes time, and the address of the built-in
sound. -/
structure Hearing where
  loud : String → Bool
  fallback : String

namespace Hearing

/-- Whether the sound of a choice is known to take time. -/
def hears (h : Hearing) (spec : SoundSpec) : Bool := h.loud (spec.effectiveUrl h.fallback)

/-- Whether what is known of the sounds is so. -/
structure IsTrue (h : Hearing) (e : Equipment) : Prop where
  loud : ∀ n url, h.loud url = true → (e.player n url).takesTime = true
  fallback : h.fallback = e.defaultSound

end Hearing

/-- What a run has before it while it moves at an instant. -/
structure Scene extends Hearing, Moment where
  paused : Bool
  channel : Channel

/-- What a run finds in some circumstances. -/
def Circumstances.scene (c : Circumstances) (d : Devices) (h : Hearing) : Scene :=
  ⟨h, d.moment c.now, c.signals.paused, d.channel⟩

section

variable (c : Circumstances) (d : Devices) (h : Hearing)

@[simp] theorem Circumstances.scene_toHearing : (c.scene d h).toHearing = h := rfl

@[simp] theorem Circumstances.scene_toMoment : (c.scene d h).toMoment = d.moment c.now := rfl

@[simp] theorem Circumstances.scene_paused : (c.scene d h).paused = c.signals.paused := rfl

@[simp] theorem Circumstances.scene_channel : (c.scene d h).channel = d.channel := rfl

end

/-! ## Steps -/

namespace Step

mutual

/-- Whether a step plays a sound that takes time, unless it is held up before. -/
def sounds (h : Hearing) : Step → Bool
  | leaf _ (.playSound spec) => h.hears spec
  | leaf _ (.playSoundUntil spec) => h.hears spec
  | leaf _ _ => false
  | block _ (.loop (.times n)) children => 0 < n.toNat && soundsIn h children
  | block _ _ _ => false

/-- Whether some step of a list plays a sound that takes time. -/
def soundsIn (h : Hearing) : List Step → Bool
  | [] => false
  | s :: rest => sounds h s || soundsIn h rest

end

theorem sounds_loop {h : Hearing} {id : StepId} {count : RepeatCount} {children : List Step}
    (hs : (block id (.loop count) children).sounds h = true) :
    soundsIn h children = true ∧ count.exceeds 0 = true := by
  cases count with
  | infinite => cases hs
  | times n => simpa [sounds, RepeatCount.exceeds, and_comm] using hs

/-- Whether something in a list of steps holds a run up that has come to it. -/
def holdsUpIn (h : Hearing) (steps : List Step) : Bool := takesTimeIn steps || soundsIn h steps

end Step

/-- Whether a round of an alert is held up by its steps, or by its sound if it has none. -/
def Raised.holdsUp (r : Raised) (h : Hearing) : Bool :=
  if r.children.isEmpty then h.hears r.alert.sound else Step.holdsUpIn h r.children

/-! ## Activities -/

namespace Activity

variable {c : Circumstances} {d : Devices} {m : Move} {h : Hearing}

/-- Whether an activity is in a sound that takes time, or comes to one before it is over. -/
def sounds (k : Scene) : Activity → Bool
  | ready steps => Step.soundsIn k.toHearing steps
  | held steps => Step.soundsIn k.toHearing steps
  | within current rest => current.sounds k || Step.soundsIn k.toHearing rest
  | entering s => s.sounds k.toHearing
  | sound _ _ (.playing call) => call.goesOn k.channel k.now
  | sound url _ _ => k.loud url
  | loopTop count children passes => Step.soundsIn k.toHearing children && count.exceeds passes
  | loopPass count children passes current =>
    current.sounds k || Step.soundsIn k.toHearing children && count.exceeds (passes + 1)
  | loopYield count children passes => Step.soundsIn k.toHearing children && count.exceeds passes
  | _ => false

theorem not_isDone_of_sounds {k : Scene} {a : Activity} (hs : a.sounds k = true) : a.isDone = false := by
  cases a with
  | done => cases hs
  | _ => rfl

theorem sounds_wake (k : Scene) (a : Activity) : a.wake.sounds k = a.sounds k := by
  induction a with
  | within current rest ih => exact congrArg (· || Step.soundsIn k.toHearing rest) ih
  | loopPass count children passes current ih => simp only [wake, sounds, ih]
  | _ => rfl

theorem sounds_beginStep {s : Step} (hh : h.IsTrue c.equipment) (hs : s.sounds h = true) :
    (beginStep c d s).next.sounds (c.scene (beginStep c d s).devices h) = true := by
  cases s with
  | leaf id action =>
    cases action with
    | playSound spec =>
      simp only [Step.sounds, Hearing.hears, hh.fallback] at hs
      exact hs
    | playSoundUntil spec =>
      simp only [Step.sounds, Hearing.hears, hh.fallback] at hs
      exact hs
    | _ => cases hs
  | block id frame children =>
    cases frame with
    | notifyUntil alert => cases hs
    | loop count =>
      obtain ⟨hin, hmore⟩ := Step.sounds_loop hs
      rcases beginLoop_cases id count children c d with hb | ⟨rfl, -⟩
      · rw [hb]
        simpa [sounds] using ⟨hin, hmore⟩
      · cases hin

/-- A sound that goes on, or that is still to come, is not lost by a move of its run. -/
theorem sounds_advance {a : Activity} (ha : c.signals.aborted = false) (hn : d.channel.Numbered)
    (hh : h.IsTrue c.equipment) (hs : a.sounds (c.scene d h) = true) (hm : a.advance c d = some m) :
    m.next.sounds (c.scene m.devices h) = true := by
  induction a generalizing m with
  | ready steps =>
    cases steps with
    | nil => cases hs
    | cons s rest =>
      rw [advance, if_neg (by simp [ha])] at hm
      split at hm <;> cases hm <;> exact hs
  | held steps =>
    rcases advance_held hm with rfl | ⟨-, s, rest, rfl, rfl⟩
    · cases steps with
      | nil => cases hs
      | cons s rest => simp [advance, ha, activate] at hm
    · exact hs
  | within current rest ih =>
    rw [sounds, Bool.or_eq_true] at hs
    rcases advance_within hm with ⟨hd, rfl⟩ | ⟨m', hm', rfl⟩
    · refine hs.resolve_left fun hcur => ?_
      rw [not_isDone_of_sounds hcur] at hd
      cases hd
    · rw [sounds, Bool.or_eq_true]
      exact hs.imp_left fun hcur => ih hcur hm'
  | entering s =>
    cases hm
    exact sounds_beginStep hh hs
  | sound url replays phase =>
    rcases advance_sound hm with ⟨rfl, rfl⟩ | ⟨rfl, rfl⟩ | ⟨rfl, rfl⟩ | ⟨call, how, rfl, hhow, rfl⟩
    · split <;> exact hs
    · exact hs
    · rw [if_neg (by simp [ha])]
      -- the new call has its own number, and its sound takes time
      have hover := Call.isOver_start (hh.loud d.channel.nextCall url hs) c.now
      have hcut := hn.isCut_install c.owner url
      simpa [beginSound, sounds, Call.goesOn, number_start, hcut] using hover
    · simp only [sounds, Call.goesOn, Bool.and_eq_true, Bool.not_eq_true', Circumstances.scene_toMoment,
        Circumstances.scene_channel, Devices.moment_now] at hs
      rcases Call.isOver_or_isCut hhow with hover | hcut
      · rw [hs.1] at hover
        cases hover
      · rw [hs.2] at hcut
        cases hcut
  | loopTop count children passes =>
    cases hm
    rw [sounds, Bool.and_eq_true] at hs
    rw [loopTop_exceeds children ha, if_pos hs.2]
    simpa [sounds] using Or.inl hs.1
  | loopPass count children passes current ih =>
    rw [sounds, Bool.or_eq_true] at hs
    rcases advance_loopPass hm with ⟨hd, rfl⟩ | ⟨m', hm', rfl⟩
    · refine hs.resolve_left fun hcur => ?_
      rw [not_isDone_of_sounds hcur] at hd
      cases hd
    · rw [sounds, Bool.or_eq_true]
      exact hs.imp_left fun hcur => ih hcur hm'
  | loopYield count children passes => cases hm
  | _ => cases hs

/-- Whether something holds an activity up at an instant. -/
def holdsUp (k : Scene) (a : Activity) : Bool := a.lasts k.toMoment || a.sounds k

theorem moment_advance {a : Activity} (hm : a.advance c d = some m) (now : Instant) :
    m.devices.moment now = d.moment now := by
  unfold Devices.moment
  rw [(notices_advance hm).dismissed]

/-- What holds an activity up goes on doing so. -/
theorem holdsUp_advance {a : Activity} (ha : c.signals.aborted = false)
    (hshown : ∀ n ∈ d.board.dismissed, n < d.board.shown) (hn : d.channel.Numbered) (hh : h.IsTrue c.equipment)
    (hs : a.holdsUp (c.scene d h) = true) (hm : a.advance c d = some m) :
    m.next.holdsUp (c.scene m.devices h) = true := by
  rw [holdsUp, Bool.or_eq_true] at hs ⊢
  refine hs.imp (fun hl => ?_) fun hl => sounds_advance ha hn hh hl hm
  rw [c.scene_toMoment, moment_advance hm]
  exact lasts_advance ha hshown hl hm

theorem not_holdsUp_of_isDone {k : Scene} {a : Activity} (hd : a.isDone = true) : a.holdsUp k = false := by
  cases a with
  | done => rfl
  | _ => cases hd

theorem holdsUp_round {k : Scene} (r : Raised) (hk : k.fallback = c.equipment.defaultSound) :
    (r.round c).holdsUp k = r.holdsUp k.toHearing := by
  unfold Raised.round Raised.holdsUp
  split
  · simp [holdsUp, lasts, sounds, Hearing.hears, hk]
  · rfl

end Activity

end StepTimer
