/-
Runs in a sound step. A sound step waits for a pause to end, looks whether the run is aborted, and takes the slot of the
channel; only a step that has come to the last of these takes it, and only then does it matter what it has seen of the
abort.
-/
import StepTimer.Proofs.Engine.Aborted

namespace StepTimer

namespace Activity

/-- Where the sound is of the sound step that an activity is in, if it is in one. The sound of an alert is none: it does
not replay. -/
def soundStep? : Activity → Option SoundPhase
  | within current _ => current.soundStep?
  | alertRound _ _ current => current.soundStep?
  | loopPass _ _ _ current => current.soundStep?
  | sound _ true phase => some phase
  | _ => none

variable {c : Circumstances} {d : Devices} {m : Move} {a : Activity} {phase : SoundPhase}

theorem sound_of_soundStep? {url : String} {replays : Bool} {phase' : SoundPhase}
    (h : (sound url replays phase').soundStep? = some phase) : replays = true ∧ phase' = phase := by
  cases replays with
  | true => cases h; exact ⟨rfl, rfl⟩
  | false => cases h

theorem isDone_of_soundStep? (h : a.soundStep? = some phase) : a.isDone = false := by
  cases a with
  | done => cases h
  | _ => rfl

/-- In a sound step a run looks at its signals before it plays. -/
theorem isGuarded_of_soundStep? (h : a.soundStep? = some phase) : a.isGuarded = true := by
  induction a with
  | within current rest ih => exact ih h
  | alertRound r t current ih => exact ih h
  | loopPass count children passes current ih => exact ih h
  | sound url replays phase' =>
    obtain ⟨rfl, rfl⟩ := sound_of_soundStep? h
    cases phase' <;> rfl
  | _ => cases h

theorem soundStep?_wake (a : Activity) : a.wake.soundStep? = a.soundStep? := by
  induction a with
  | within current rest ih => exact ih
  | alertRound r t current ih => exact ih
  | loopPass count children passes current ih => exact ih
  | _ => rfl

/-- A move in a sound step leaves the run guarded, whatever it has seen of its signals; and unless the step was about to
take the slot, nothing is in the slot then that was not there before. -/
theorem advance_soundStep (hs : a.soundStep? = some phase) (h : a.advance c d = some m) : m.next.isGuarded = true ∧
    (phase ≠ .begin → ∀ p, m.devices.channel.current = some p → d.channel.current = some p) := by
  induction a generalizing m with
  | within current rest ih =>
    have inner : current.soundStep? = some phase := hs
    rcases advance_within h with ⟨done, -⟩ | ⟨m', hm', rfl⟩
    · rw [isDone_of_soundStep? inner] at done; cases done
    · have next := ih inner hm'
      exact next
  | alertRound r t current ih =>
    have inner : current.soundStep? = some phase := hs
    rcases advance_alertRound h with ⟨done, -⟩ | ⟨m', hm', rfl⟩ | h
    · rw [isDone_of_soundStep? inner] at done; cases done
    · have next := ih inner hm'
      exact next
    · -- the countdown beside the round moves: at the most it silences the run
      rcases beside_cases h with ⟨countdown, rfl⟩ | ⟨tm, t', -, -, hnext, hd, -⟩
      · obtain ⟨-, devices⟩ := afterRound_call (c := c) (d := c.silence d) r countdown current.dropEvents
        refine ⟨?_, fun _ p hp => ?_⟩
        · obtain ⟨report, -, ⟨t, -, -, he⟩ | ⟨countdown', he⟩⟩ :=
            afterRound_cases r countdown c (c.silence d) current.dropEvents <;> rw [he] <;> rfl
        · rw [devices] at hp
          rcases d.channel.stopOwnedBy_cases c.owner with ⟨-, -, -, he⟩ | ⟨-, he⟩
          · rw [Circumstances.silence, he, d.channel.current_stop] at hp; cases hp
          · rwa [Circumstances.silence, he] at hp
      · rw [hnext, hd]
        exact ⟨isGuarded_of_soundStep? hs, fun _ _ hp => hp⟩
  | loopPass count children passes current ih =>
    have inner : current.soundStep? = some phase := hs
    rcases advance_loopPass h with ⟨done, -⟩ | ⟨m', hm', rfl⟩
    · rw [isDone_of_soundStep? inner] at done; cases done
    · have next := ih inner hm'
      exact next
  | sound url replays phase' =>
    obtain ⟨rfl, rfl⟩ := sound_of_soundStep? hs
    rcases advance_sound h with ⟨rfl, rfl⟩ | ⟨rfl, rfl⟩ | ⟨rfl, rfl⟩ | ⟨call, how, rfl, -, rfl⟩
    · refine ⟨?_, fun _ _ hp => hp⟩
      cases c.signals.paused <;> rfl
    · exact ⟨rfl, fun _ _ hp => hp⟩
    · refine ⟨?_, fun hne => absurd rfl hne⟩
      cases c.signals.aborted <;> rfl
    · constructor
      · split <;> rfl
      · intro _ p hp
        rcases d.channel.release_cases call.number with ⟨-, he⟩ | ⟨-, he⟩ <;> rw [he] at hp
        · cases hp
        · exact hp
  | _ => cases hs

/-- A sound step that is about to take the slot, and has seen that the run is not aborted, takes it. -/
theorem advance_of_begin (hs : a.soundStep? = some .begin) (live : c.signals.aborted = false) (coin : c.coin = true) :
    ∃ m, a.advance c d = some m ∧ ∃ p, m.devices.channel.current = some p ∧ p.owner = c.owner := by
  induction a with
  | within current rest ih =>
    have inner : current.soundStep? = some .begin := hs
    obtain ⟨m, hm, taken⟩ := ih inner
    refine ⟨{ m with next := within m.next rest }, ?_, taken⟩
    simp [advance, isDone_of_soundStep? inner, hm]
  | alertRound r t current ih =>
    have inner : current.soundStep? = some .begin := hs
    obtain ⟨m, hm, taken⟩ := ih inner
    refine ⟨{ m with next := alertRound r t m.next }, ?_, taken⟩
    simp [advance, isDone_of_soundStep? inner, hm, coin]
  | loopPass count children passes current ih =>
    have inner : current.soundStep? = some .begin := hs
    obtain ⟨m, hm, taken⟩ := ih inner
    refine ⟨{ m with next := loopPass count children passes m.next }, ?_, taken⟩
    simp [advance, isDone_of_soundStep? inner, hm]
  | sound url replays phase =>
    obtain ⟨rfl, rfl⟩ := sound_of_soundStep? hs
    refine ⟨beginSound url true c d, ?_, ⟨d.channel.nextCall, c.owner, url⟩, rfl, rfl⟩
    simp [advance, advanceSound, live]
  | _ => cases hs

end Activity

end StepTimer
