/-
A paused run has nothing to start. A run that cannot go on is at a place where it looks at its signals
before it begins anything (`isStill`), and while they say that it is paused its moves lead to such
places only: no step becomes active, and no sound begins.
-/
import StepTimer.Proofs.Engine.Aborted

namespace StepTimer

/-- A guarded run that is aborted makes no call to the player. -/
theorem CallMove.nextCall_eq {c : Circumstances} {k k' : Option Call} {ch ch' : Channel}
    (h : CallMove c true k ch k' ch') (ha : c.signals.aborted = true) : ch'.nextCall = ch.nextCall := by
  cases h with
  | keeps => rfl
  | silences => exact ch.nextCall_stopOwnedBy c.owner
  | takes _ _ _ _ hno => rw [hno rfl] at ha; cases ha
  | ends call => exact ch.nextCall_release call.number

namespace Activity

/-- Whether a run is neither about to begin a step nor about to take the channel. -/
def isStill : Activity → Bool
  | within current _ => current.isStill
  | alertRound _ _ current => current.isStill
  | loopPass _ _ _ current => current.isStill
  | entering _ => false
  | sound _ _ .begin => false
  | _ => true

variable {c : Circumstances} {d : Devices} {m : Move}

theorem entered?_of_isStill {a : Activity} (h : a.isStill = true) : a.entered? = none := by
  induction a with
  | within current rest ih => exact ih h
  | alertRound r t current ih => exact ih h
  | loopPass count children passes current ih => exact ih h
  | entering s => cases h
  | _ => rfl

theorem isStill_wake {a : Activity} (h : a.isStill = true) : a.wake.isStill = true := by
  induction a with
  | within current rest ih => exact ih h
  | alertRound r t current ih => exact ih h
  | loopPass count children passes current ih => exact ih h
  | _ => exact h

/-- A run that cannot go on is still. -/
theorem isStill_of_advance_eq_none {a : Activity} (h : a.advance c d = none) : a.isStill = true := by
  induction a with
  | within current rest ih =>
    simp only [advance] at h
    split at h
    · cases h
    · exact ih (by simpa using h)
  | alertRound r t current ih =>
    simp only [advance] at h
    split at h
    · cases h
    · split at h <;> simp only [Option.or_eq_none_iff, Option.map_eq_none_iff] at h
      · exact ih h.1
      · exact ih h.2
  | loopPass count children passes current ih =>
    simp only [advance] at h
    split at h
    · cases h
    · exact ih (by simpa using h)
  | entering s => cases h
  | sound url replays phase =>
    cases phase with
    | begin =>
      simp only [advance, advanceSound] at h
      split at h <;> cases h
    | _ => rfl
  | _ => rfl

/-- What a move leads to that starts nothing. -/
structure Hushed (d : Devices) (m : Move) : Prop where
  still : m.next.isStill = true
  quiet : ∀ url, .play url ∉ m.events
  calls : m.devices.channel.nextCall = d.channel.nextCall

theorem hushed_afterRound (r : Raised) (countdown : Countdown) {events : List Event} {d' : Devices}
    (hquiet : ∀ url, .play url ∉ events) (hd : d'.channel.nextCall = d.channel.nextCall) :
    Hushed d (r.afterRound countdown c d' events) := by
  obtain ⟨report, hreport, hcase⟩ := afterRound_cases r countdown c d' events
  have hq : ∀ url, .play url ∉ events ++ report := by
    intro url hmem
    rcases List.mem_append.1 hmem with hmem | hmem
    · exact hquiet url hmem
    · obtain ⟨ms, hms⟩ := hreport _ hmem
      cases hms
  rcases hcase with ⟨t, -, -, h⟩ | ⟨countdown', h⟩ <;> rw [h] <;> exact ⟨rfl, hq, hd⟩

/-- A move of a run that is paused, and not aborted, starts nothing if the run is still. -/
theorem hushed_advance {a : Activity} (ha : c.signals.aborted = false) (hp : c.signals.paused = true)
    (hs : a.isStill = true) (h : a.advance c d = some m) : Hushed d m := by
  induction a generalizing m with
  | done => cases h
  | ready steps =>
    cases steps with
    | nil => cases h; exact ⟨rfl, by simp, rfl⟩
    | cons s rest =>
      simp only [advance, ha, hp] at h
      cases h
      exact ⟨rfl, by simp, rfl⟩
  | held steps =>
    cases steps with
    | nil => cases h; exact ⟨rfl, by simp, rfl⟩
    | cons s rest => simp [advance, ha, hp] at h
  | within current rest ih =>
    rcases advance_within h with ⟨-, rfl⟩ | ⟨m', hm', rfl⟩
    · exact ⟨rfl, by simp, rfl⟩
    · have hh := ih hs hm'
      exact ⟨hh.still, hh.quiet, hh.calls⟩
  | entering s => cases hs
  | counting id t =>
    obtain ⟨hd, ⟨hnext, he⟩ | ⟨tm, t', -, -, hnext, he⟩⟩ := advance_counting h
    · exact ⟨by rw [hnext]; rfl, by simp [he], by rw [hd]⟩
    · exact ⟨by rw [hnext]; rfl, quiet_ticking he, by rw [hd]⟩
  | sound url replays phase =>
    cases phase with
    | check =>
      -- the pause is seen here, and the sound is held
      simp only [advance, advanceSound, hp] at h
      cases h
      exact ⟨rfl, by simp, rfl⟩
    | held => simp [advance, advanceSound, ha, hp] at h
    | begin => cases hs
    | playing call =>
      obtain ⟨how, -, rfl⟩ := Option.map_eq_some_iff.1 h
      refine ⟨?_, fun url' => ?_, d.channel.nextCall_release call.number⟩
      · dsimp only
        split <;> rfl
      · cases how <;> simp [endEvent]
  | notifying n phase grace =>
    rcases advance_notifying h with ⟨due, delay, fails, -, rfl⟩ | ⟨hnext, hd, he⟩
    · exact ⟨rfl, by simp, rfl⟩
    · exact ⟨by rw [hnext]; rfl, by rcases he with he | he <;> simp [he], by rw [hd]⟩
  | announcing id alert children countdown phase =>
    rcases advance_announcing h with ⟨due, delay, fails, -, rfl⟩ | ⟨notice, hnext, hd, he⟩
    · exact ⟨rfl, by simp, rfl⟩
    · exact ⟨by rw [hnext]; rfl, by rcases he with he | he <;> simp [he], by rw [hd]⟩
  | alertTop r countdown =>
    cases h
    unfold advanceAlertTop
    split
    · exact ⟨rfl, by simp [Raised.finish], d.channel.nextCall_stopOwnedBy c.owner⟩
    · exact ⟨rfl, by simp, rfl⟩
  | alertHeld r countdown => rw [advance_alertHeld h]; exact ⟨rfl, by simp, rfl⟩
  | alertRound r t current ih =>
    rcases advance_alertRound h with ⟨-, rfl⟩ | ⟨m', hm', rfl⟩ | h
    · exact hushed_afterRound r t.countdown (by simp) rfl
    · have hh := ih hs hm'
      exact ⟨hh.still, hh.quiet, hh.calls⟩
    · rcases beside_cases h with ⟨countdown, rfl⟩ | ⟨tm, t', -, -, hnext, hd, he⟩
      · exact hushed_afterRound r countdown (quiet_dropEvents current) (d.channel.nextCall_stopOwnedBy c.owner)
      · exact ⟨by rw [hnext]; exact hs, quiet_ticking he, by rw [hd]⟩
  | alertGap r t =>
    obtain ⟨hd, ⟨countdown, hnext, he⟩ | ⟨tm, t', -, -, hnext, he⟩⟩ := advance_alertGap h
    · exact ⟨by rw [hnext]; rfl, by simp [he], by rw [hd]⟩
    · exact ⟨by rw [hnext]; rfl, quiet_ticking he, by rw [hd]⟩
  | loopTop count children passes =>
    cases h
    rcases loopTop_cases count children passes c d with h | ⟨-, h⟩ <;> rw [h] <;> exact ⟨rfl, by simp, rfl⟩
  | loopPass count children passes current ih =>
    rcases advance_loopPass h with ⟨-, rfl⟩ | ⟨m', hm', rfl⟩
    · exact ⟨rfl, by simp, rfl⟩
    · have hh := ih hs hm'
      exact ⟨hh.still, hh.quiet, hh.calls⟩
  | loopYield count children passes => cases h
  | parked => rw [advance_parked h]; exact ⟨rfl, by simp, rfl⟩

/-- Whether a run that is paused or aborted has nothing to start: it is still, or it is aborted and guarded. -/
def isSilent (signals : Signals) (a : Activity) : Bool := if signals.aborted then a.isGuarded else a.isStill

theorem entered?_of_isSilent {signals : Signals} {a : Activity} (h : a.isSilent signals = true) :
    a.entered? = none := by
  unfold isSilent at h
  split at h
  · exact entered?_of_isGuarded h
  · exact entered?_of_isStill h

theorem isSilent_wake {signals : Signals} {a : Activity} (h : a.isSilent signals = true) :
    a.wake.isSilent signals = true := by
  unfold isSilent at h ⊢
  split at h <;> rename_i ha
  · rw [if_pos ha]
    exact isGuarded_wake h
  · rw [if_neg ha]
    exact isStill_wake h

/-- A run whose sound is under way has nothing to start. -/
theorem isSilent_of_call? {a : Activity} {call : Call} (h : a.call? = some call) (signals : Signals) :
    a.isSilent signals = true := by
  have hboth : a.isGuarded = true ∧ a.isStill = true := by
    induction a with
    | within current rest ih => exact ih h
    | alertRound r t current ih => exact ih h
    | loopPass count children passes current ih => exact ih h
    | sound url replays phase =>
      cases phase with
      | playing call' => exact ⟨rfl, rfl⟩
      | _ => cases h
    | _ => cases h
  unfold isSilent
  split
  · exact hboth.1
  · exact hboth.2

/-- While a run is paused or aborted it goes on to have nothing to start, and starts nothing. -/
theorem isSilent_advance {a : Activity} (hp : c.signals.aborted = true ∨ c.signals.paused = true)
    (hs : a.isSilent c.signals = true) (h : a.advance c d = some m) :
    m.next.isSilent c.signals = true ∧ (∀ url, .play url ∉ m.events) ∧
      m.devices.channel.nextCall = d.channel.nextCall := by
  cases ha : c.signals.aborted with
  | true =>
    simp only [isSilent, ha, if_true] at hs ⊢
    have hw := windsDown_advance ha hs h
    have hmove := advance_call h
    rw [hs] at hmove
    exact ⟨hw.guarded, hw.quiet, hmove.nextCall_eq ha⟩
  | false =>
    simp only [isSilent, ha] at hs ⊢
    have hh := hushed_advance ha (hp.resolve_left (by simp [ha])) hs h
    exact ⟨hh.still, hh.quiet, hh.calls⟩

end Activity

end StepTimer
