/-
How a run winds up once it is aborted. Between its polls a run is guarded: it is not about to begin a
step, and not about to play a sound without looking at its signals first. An aborted run that is
guarded stays so, enters no step, plays no sound, and with every move has fewer moves before it
(`span`); and nothing can hold it but a call to the notifier.
-/
import StepTimer.Proofs.Engine.Calls
import StepTimer.Proofs.Engine.Waits

namespace StepTimer

namespace Activity

/-- The step that has just become active. -/
def entered? : Activity → Option Step
  | within current _ => current.entered?
  | alertRound _ _ current => current.entered?
  | loopPass _ _ _ current => current.entered?
  | entering s => some s
  | _ => none

/-- The moves that an aborted run has before it at the most. -/
@[simp] def span : Activity → Nat
  | done => 0
  | within current _ => current.span + 2
  | counting _ t => t.span
  | sound _ _ .check => 3
  | sound _ _ .held => 2
  | notifying _ (.asking _ _) _ => 2
  | announcing _ _ _ _ (.asking _ _) => 3
  | announcing _ _ _ _ (.presenting _ _) => 2
  | alertHeld _ _ => 2
  | alertRound _ t current => current.span + t.span + 3
  | alertGap _ t => t.span + 1
  | loopPass _ _ _ current => current.span + 3
  | loopYield _ _ _ => 2
  | _ => 1

variable {c : Circumstances} {d : Devices} {m : Move}

theorem entered?_of_isGuarded {a : Activity} (h : a.isGuarded = true) : a.entered? = none := by
  induction a with
  | within current rest ih => exact ih h
  | alertRound r t current ih => exact ih h
  | loopPass count children passes current ih => exact ih h
  | entering s => cases h
  | _ => rfl

theorem isGuarded_wake {a : Activity} (h : a.isGuarded = true) : a.wake.isGuarded = true := by
  induction a with
  | within current rest ih => exact ih h
  | alertRound r t current ih => exact ih h
  | loopPass count children passes current ih => exact ih h
  | _ => exact h

theorem hasYielded_wake (a : Activity) : a.wake.hasYielded = false := by
  induction a with
  | within current rest ih => exact ih
  | alertRound r t current ih => exact ih
  | loopPass count children passes current ih => exact ih
  | _ => rfl

/-- A run whose turn comes has less before it when it let others go first. -/
theorem span_wake (a : Activity) :
    a.wake.span < a.span ∨ a.wake = a ∧ a.hasYielded = false := by
  induction a with
  | within current rest ih =>
    refine ih.imp (fun h => ?_) fun h => ⟨congrArg (within · rest) h.1, h.2⟩
    simpa [wake, span] using h
  | alertRound r t current ih =>
    refine ih.imp (fun h => ?_) fun h => ⟨congrArg (alertRound r t) h.1, h.2⟩
    simpa [wake, span] using h
  | loopPass count children passes current ih =>
    refine ih.imp (fun h => ?_) fun h => ⟨congrArg (loopPass count children passes) h.1, h.2⟩
    simpa [wake, span] using h
  | loopYield count children passes => exact Or.inl (by simp [wake, span])
  | _ => exact Or.inr ⟨rfl, rfl⟩

/-! ## Between the polls -/

/-- Whether every sound that a pause may hold is one that replays: the sound of an alert has the
countdown beside it to be held. -/
def isPosed : Activity → Bool
  | within current _ => current.isPosed
  | alertRound _ _ current => current.isPosed
  | loopPass _ _ _ current => current.isPosed
  | sound _ replays .check => replays
  | sound _ replays .held => replays
  | _ => true

theorem isPosed_wake {a : Activity} (h : a.isPosed = true) : a.wake.isPosed = true := by
  induction a with
  | within current rest ih => exact ih h
  | alertRound r t current ih => exact ih h
  | loopPass count children passes current ih => exact ih h
  | _ => exact h

theorem isPosed_beginStep (s : Step) : (beginStep c d s).next.isPosed = true := by
  cases s with
  | leaf id action => cases action <;> rfl
  | block id frame children =>
    cases frame with
    | notifyUntil alert => rfl
    | loop count => rcases beginLoop_cases id count children c d with h | ⟨-, ⟨-, h⟩ | ⟨-, h⟩⟩ <;> rw [h] <;> rfl

theorem isPosed_afterRound (r : Raised) (countdown : Countdown) (events : List Event) :
    (r.afterRound countdown c d events).next.isPosed = true := by
  obtain ⟨report, -, ⟨t, -, -, h⟩ | ⟨countdown', h⟩⟩ := afterRound_cases r countdown c d events <;> rw [h] <;> rfl

theorem isPosed_advance {a : Activity} (h : a.advance c d = some m) (ha : a.isPosed = true) :
    m.next.isPosed = true := by
  induction a generalizing m with
  | done => cases h
  | ready steps => rcases advance_ready h with rfl | ⟨-, rfl | ⟨s, rest, rfl, rfl⟩⟩ <;> rfl
  | held steps => rcases advance_held h with rfl | ⟨-, s, rest, rfl, rfl⟩ <;> rfl
  | within current rest ih =>
    rcases advance_within h with ⟨-, rfl⟩ | ⟨m', hm', rfl⟩
    · rfl
    · have hnext := ih hm' ha
      exact hnext
  | entering s => cases h; exact isPosed_beginStep s
  | counting id t =>
    obtain ⟨-, ⟨hnext, -⟩ | ⟨tm, t', -, -, hnext, -⟩⟩ := advance_counting h <;> rw [hnext] <;> rfl
  | sound url replays phase =>
    rcases advance_sound h with ⟨rfl, rfl⟩ | ⟨rfl, rfl⟩ | ⟨rfl, rfl⟩ | ⟨call, how, rfl, -, rfl⟩
    · cases c.signals.paused
      · rfl
      · exact ha
    · rfl
    · split <;> rfl
    · dsimp only
      split
      · rename_i hagain; simp_all [isPosed]
      · rfl
  | notifying n phase grace =>
    rcases advance_notifying h with ⟨due, delay, fails, -, rfl⟩ | ⟨hnext, -⟩
    · rfl
    · rw [hnext]; rfl
  | announcing id alert children countdown phase =>
    rcases advance_announcing h with ⟨due, delay, fails, -, rfl⟩ | ⟨notice, hnext, -⟩
    · rfl
    · rw [hnext]; rfl
  | alertTop r countdown =>
    cases h
    rcases alertTop_cases r countdown c d with h | ⟨-, ⟨countdown', h⟩ | ⟨t, -, h⟩⟩ <;> rw [h]
    · rfl
    · rfl
    · show (r.round c).isPosed = true
      unfold Raised.round
      split <;> rfl
  | alertHeld r countdown => rw [advance_alertHeld h]; rfl
  | alertRound r t current ih =>
    rcases advance_alertRound h with ⟨-, rfl⟩ | ⟨m', hm', rfl⟩ | h
    · exact isPosed_afterRound r t.countdown []
    · have hnext := ih hm' ha
      exact hnext
    · rcases beside_cases h with ⟨countdown, rfl⟩ | ⟨tm, t', -, -, hnext, -⟩
      · exact isPosed_afterRound r countdown current.dropEvents
      · rw [hnext]; exact ha
  | alertGap r t =>
    obtain ⟨-, ⟨countdown, hnext, -⟩ | ⟨tm, t', -, -, hnext, -⟩⟩ := advance_alertGap h <;> rw [hnext] <;> rfl
  | loopTop count children passes =>
    cases h
    rcases loopTop_cases count children passes c d with h | ⟨-, h⟩ <;> rw [h] <;> rfl
  | loopPass count children passes current ih =>
    rcases advance_loopPass h with ⟨-, rfl⟩ | ⟨m', hm', rfl⟩
    · rfl
    · have hnext := ih hm' ha
      exact hnext
  | loopYield count children passes => cases h
  | parked => rw [advance_parked h]; rfl

/-- A run that cannot go on is guarded: what is not guarded goes on at once. -/
theorem isGuarded_of_advance_eq_none {a : Activity} (h : a.advance c d = none) (ha : a.isPosed = true) :
    a.isGuarded = true := by
  induction a with
  | within current rest ih =>
    simp only [advance] at h
    split at h
    · cases h
    · exact ih (by simpa using h) ha
  | alertRound r t current ih =>
    simp only [advance] at h
    split at h
    · cases h
    · split at h <;> simp only [Option.or_eq_none_iff, Option.map_eq_none_iff] at h
      -- the coin only decides which of the two is asked first
      · exact ih h.1 ha
      · exact ih h.2 ha
  | loopPass count children passes current ih =>
    simp only [advance] at h
    split at h
    · cases h
    · exact ih (by simpa using h) ha
  | entering s => cases h
  | sound url replays phase =>
    cases phase with
    | check => cases h
    | held => exact ha
    | begin =>
      simp only [advance, advanceSound] at h
      split at h <;> cases h
    | playing call => rfl
  | _ => rfl

/-! ## Moves of an aborted run -/

/-- What a move of an aborted run leads to: less is left, no step is entered and no sound is played. -/
structure WindsDown (a : Activity) (m : Move) : Prop where
  guarded : m.next.isGuarded = true
  span : m.next.span < a.span
  quiet : ∀ url, .play url ∉ m.events

/-- A countdown plays nothing. -/
theorem quiet_ticking {t : Ticking} {events : List Event} (he : events = [] ∨ events = t.report) (url : String) :
    .play url ∉ events := by
  rcases he with rfl | rfl
  · simp
  · unfold Ticking.report
    split <;> simp

theorem quiet_dropEvents (a : Activity) (url : String) : .play url ∉ a.dropEvents := by
  unfold dropEvents
  split <;> simp

theorem windsDown_afterRound {a : Activity} (r : Raised) (countdown : Countdown) {events : List Event}
    (hspan : 2 < a.span) (hquiet : ∀ url, .play url ∉ events) :
    WindsDown a (r.afterRound countdown c d events) := by
  obtain ⟨report, hreport, hcase⟩ := afterRound_cases r countdown c d events
  have hq : ∀ url, .play url ∉ events ++ report := by
    intro url hmem
    rcases List.mem_append.1 hmem with hmem | hmem
    · exact hquiet url hmem
    · obtain ⟨ms, hms⟩ := hreport _ hmem
      cases hms
  rcases hcase with ⟨t, ht, -, h⟩ | ⟨countdown', h⟩ <;> rw [h]
  · have hone : t.span = 1 := by simp [Ticking.span, ht]
    refine ⟨rfl, ?_, hq⟩
    simp only [span, hone]
    omega
  · refine ⟨rfl, ?_, hq⟩
    simp only [span]
    omega

theorem windsDown_advance {a : Activity} (ha : c.signals.aborted = true) (hg : a.isGuarded = true)
    (h : a.advance c d = some m) : WindsDown a m := by
  induction a generalizing m with
  | done => cases h
  | ready steps =>
    rcases advance_ready h with rfl | ⟨hna, -⟩
    · exact ⟨rfl, by simp [span], by simp⟩
    · rw [ha] at hna; cases hna
  | held steps =>
    rcases advance_held h with rfl | ⟨hna, -⟩
    · exact ⟨rfl, by simp [span], by simp⟩
    · rw [ha] at hna; cases hna
  | within current rest ih =>
    rcases advance_within h with ⟨-, rfl⟩ | ⟨m', hm', rfl⟩
    · exact ⟨rfl, by simp only [span]; omega, by simp⟩
    · have hw := ih hg hm'
      exact ⟨hw.guarded, Nat.add_lt_add_right hw.span 2, hw.quiet⟩
  | entering s => cases hg
  | counting id t =>
    obtain ⟨-, ⟨hnext, he⟩ | ⟨tm, t', htm, ht', hnext, he⟩⟩ := advance_counting h
    · exact ⟨by rw [hnext]; rfl, by rw [hnext]; exact t.span_pos, by simp [he]⟩
    · exact ⟨by rw [hnext]; rfl, by rw [hnext]; exact Ticking.span_advance (Or.inl ha) htm ht', quiet_ticking he⟩
  | sound url replays phase =>
    rcases advance_sound h with ⟨rfl, rfl⟩ | ⟨rfl, rfl⟩ | ⟨rfl, rfl⟩ | ⟨call, how, rfl, -, rfl⟩
    · cases c.signals.paused
      · exact ⟨hg, by simp [span], by simp⟩
      · exact ⟨hg, by simp [span], by simp⟩
    · exact ⟨hg, by simp [span], by simp⟩
    · -- the sound would begin, but is one that looks at the abort first
      have hreplays : replays = true := hg
      rw [hreplays, ha]
      exact ⟨rfl, by simp [span], by simp⟩
    · have hdone : (if replays && how = .interrupted && c.signals.paused && !c.signals.aborted then
          sound url replays .check else done) = done := by simp [ha]
      rw [hdone]
      refine ⟨rfl, by simp [span], fun url' => ?_⟩
      cases how <;> simp [endEvent]
  | notifying n phase grace =>
    rcases advance_notifying h with ⟨due, delay, fails, rfl, rfl⟩ | ⟨hnext, -, he⟩
    · exact ⟨rfl, by simp [span], by simp⟩
    · refine ⟨by rw [hnext]; rfl, ?_, by rcases he with he | he <;> simp [he]⟩
      rw [hnext]
      cases phase <;> simp [span]
  | announcing id alert children countdown phase =>
    rcases advance_announcing h with ⟨due, delay, fails, rfl, rfl⟩ | ⟨notice, hnext, -, he⟩
    · exact ⟨rfl, by simp [span], by simp⟩
    · refine ⟨by rw [hnext]; rfl, ?_, by rcases he with he | he <;> simp [he]⟩
      rw [hnext]
      cases phase <;> simp [span]
  | alertTop r countdown =>
    cases h
    rcases alertTop_cases r countdown c d with h | ⟨hna, -⟩
    · rw [h]; exact ⟨rfl, by simp [Raised.finish, span], by simp [Raised.finish]⟩
    · rw [ha] at hna; cases hna
  | alertHeld r countdown => rw [advance_alertHeld h]; exact ⟨rfl, by simp [span], by simp⟩
  | alertRound r t current ih =>
    -- after the round there are the pause before the next one and the decision at the most
    have hspan : 2 < (alertRound r t current).span := by simp only [span]; omega
    rcases advance_alertRound h with ⟨-, rfl⟩ | ⟨m', hm', rfl⟩ | h
    · exact windsDown_afterRound r t.countdown hspan (by simp)
    · have hw := ih hg hm'
      refine ⟨hw.guarded, ?_, hw.quiet⟩
      have hlt := hw.span
      simp only [span]
      omega
    · rcases beside_cases h with ⟨countdown, rfl⟩ | ⟨tm, t', htm, ht', hnext, -, he⟩
      · exact windsDown_afterRound r countdown hspan (quiet_dropEvents current)
      · have hlt := Ticking.span_advance (Or.inl ha) htm ht'
        refine ⟨by rw [hnext]; exact hg, ?_, quiet_ticking he⟩
        rw [hnext]
        simp only [span]
        omega
  | alertGap r t =>
    obtain ⟨-, ⟨countdown, hnext, he⟩ | ⟨tm, t', htm, ht', hnext, he⟩⟩ := advance_alertGap h
    · refine ⟨by rw [hnext]; rfl, ?_, by simp [he]⟩
      have hpos := t.span_pos
      rw [hnext]
      simp only [span]
      omega
    · refine ⟨by rw [hnext]; rfl, ?_, quiet_ticking he⟩
      rw [hnext]
      exact Nat.add_lt_add_right (Ticking.span_advance (Or.inl ha) htm ht') 1
  | loopTop count children passes =>
    cases h
    rcases loopTop_cases count children passes c d with h | ⟨hna, -⟩
    · rw [h]; exact ⟨rfl, by simp [span], by simp⟩
    · rw [ha] at hna; cases hna
  | loopPass count children passes current ih =>
    rcases advance_loopPass h with ⟨-, rfl⟩ | ⟨m', hm', rfl⟩
    · exact ⟨rfl, by simp only [span]; omega, by simp⟩
    · have hw := ih hg hm'
      exact ⟨hw.guarded, Nat.add_lt_add_right hw.span 3, hw.quiet⟩
  | loopYield count children passes => cases h
  | parked => rw [advance_parked h]; exact ⟨rfl, by simp [span], by simp⟩

/-- Nothing holds an aborted run whose sound was cut, but a call to the notifier that is not over. -/
theorem isSome_advance_of_aborted {a : Activity} (ha : c.signals.aborted = true) (hd : a.isDone = false)
    (hy : a.hasYielded = false) (hcut : ∀ call, a.call? = some call → d.channel.isCut call.number = true)
    (hv : ∀ v, a.awaits? = some v → v.IsOver c.now) : (a.advance c d).isSome := by
  induction a with
  | done => cases hd
  | ready steps => cases steps <;> simp [advance, ha]
  | held steps => cases steps <;> simp [advance, ha]
  | within current rest ih =>
    simp only [advance]
    split
    · rfl
    · rename_i hcur
      simpa using ih (by simpa using hcur) hy hcut hv
  | entering s => rfl
  | counting id t => simpa [advance, advanceCounting] using Ticking.isSome_advance (Or.inl ha)
  | sound url replays phase =>
    cases phase with
    | check => rfl
    | held => simp [advance, advanceSound, ha]
    | begin => simp only [advance, advanceSound]; split <;> rfl
    | playing call =>
      -- a cut call has an end, if not that of its sound
      have hend : (call.end? c.coin d.channel c.now).isSome := by
        unfold Call.end?
        rw [hcut call rfl]
        cases call.isOver c.now <;> rfl
      simpa [advance, advanceSound] using hend
  | notifying n phase grace => exact isSome_advance_of_isOver rfl (hv _ rfl)
  | announcing id alert children countdown phase => exact isSome_advance_of_isOver rfl (hv _ rfl)
  | alertTop r countdown => rfl
  | alertHeld r countdown => simp [advance, ha]
  | alertRound r t current ih =>
    -- the countdown beside the round is not held, whatever the round is in
    have hbeside : (advanceBeside r t current c d).isSome := by
      simpa [advanceBeside] using Ticking.isSome_advance (Or.inl ha)
    simp only [advance]
    split
    · rfl
    · split <;> simp [Option.isSome_or, hbeside]
  | alertGap r t => simpa [advance, advanceGap] using Ticking.isSome_advance (Or.inl ha)
  | loopTop count children passes => rfl
  | loopPass count children passes current ih =>
    simp only [advance]
    split
    · rfl
    · rename_i hcur
      simpa using ih (by simpa using hcur) hy hcut hv
  | loopYield count children passes => cases hy
  | parked => simp [advance, ha]

end Activity

end StepTimer
