/-
What outlasts a pause. The pause of a run is seen before each step, before each round of an alert, by a
countdown and by a sound that it cuts; it is not seen at the end of a run. So a run that is paused comes to
its end all the same when nothing is left in it that the pause holds back. `Activity.outlasts` says whether
something is left: more steps or another pass on some level, a wait with time on it, a sound that was cut
before it was through, an alert with time on it, a loop that only ends by an abort. A dismissal ends an alert
also while it is paused, so an alert counts if nobody can dismiss it, or if nobody does.
-/
import StepTimer.Proofs.Engine.Calls
import StepTimer.Proofs.Engine.Countdowns
import StepTimer.Proofs.Engine.Notices

namespace StepTimer

/-- Whether a loop is over after so many passes. -/
def RepeatCount.isOver (count : RepeatCount) (passes : Nat) : Bool :=
  match count with
  | .infinite => false
  | .times n => n.toNat ≤ passes

/-- Whether a notification that is on its way may still be shown. -/
def NoticePhase.mayShow : NoticePhase → Bool
  | .asking _ permission => permission = .granted
  | .presenting _ fails => !fails

namespace Countdown

variable {c : Countdown} {now : Instant}

theorem settle_settle : (c.settle now).settle now = c.settle now := by
  rcases c with ⟨remaining, _ | t⟩
  · rfl
  · simp only [settle, Instant.millisSince_self, Countdown.mk.injEq, and_true, countMin, countMax]
    omega

theorem pos_of_settle (h : 0 < (c.settle now).remaining) : 0 < c.remaining := by
  rcases c with ⟨remaining, _ | t⟩
  · exact h
  · simp only [settle, countMin, countMax] at h ⊢
    omega

end Countdown

namespace Ticking

/-- Whether a countdown has time left when it is paused at an instant. -/
def hasTime (t : Ticking) (now : Instant) : Bool :=
  match t.phase with
  | .top => t.floor < t.countdown.remaining
  | .held => true
  | .asleep _ => t.floor < (t.countdown.settle now).remaining

/-- Whether the countdown of an alert is above zero at an instant; when it is held it stands still. -/
def isAbove (t : Ticking) (now : Instant) : Bool :=
  0 < (t.countdown.settle now).remaining && (t.phase != .held || t.countdown.anchor.isNone)

variable {t t' : Ticking} {now : Instant} {signals : Signals} {tm : TickMove}

/-- A countdown that has time left when it is paused does not end. -/
theorem hasTime_advance (hp : signals.paused = true) (ha : signals.aborted = false) (ht : t.hasTime now = true)
    (h : t.advance now signals false = some tm) : ∃ t', tm.ticking? = some t' ∧ t'.hasTime now = true := by
  rcases t with ⟨countdown, floor, reportAs, phase⟩
  cases phase with
  | top =>
    have left : ¬ countdown.remaining ≤ floor := by simpa [hasTime] using ht
    simp [advance, ha, hp, left] at h
    subst h
    exact ⟨_, rfl, rfl⟩
  | held => simp [advance, ha, hp] at h
  | asleep alarm =>
    simp [advance, hp] at h
    subst h
    exact ⟨_, rfl, ht⟩

/-- The countdown of an alert that is above zero when it is paused stays so, also when it ends at its floor. -/
theorem isAbove_advance (hp : signals.paused = true) (ha : signals.aborted = false) (ht : t.isAbove now = true)
    (h : t.advance now signals false = some tm) :
    (∀ countdown, tm = .ended countdown → 0 < (countdown.settle now).remaining) ∧
      ∀ t', tm.ticking? = some t' → t'.isAbove now = true := by
  rcases t with ⟨countdown, floor, reportAs, phase⟩
  simp only [isAbove, Bool.and_eq_true, decide_eq_true_eq] at ht
  cases phase with
  | top =>
    by_cases left : countdown.remaining ≤ floor
    · simp [advance, left] at h
      subst h
      refine ⟨fun _ hc => ?_, fun t' ht' => by cases ht'⟩
      cases hc
      exact ht.1
    · simp [advance, ha, hp, left] at h
      subst h
      refine ⟨fun _ hc => (by cases hc), fun t' ht' => ?_⟩
      cases ht'
      have still : ((countdown.suspend now).settle now).remaining = (countdown.settle now).remaining := rfl
      simp only [isAbove, still, decide_eq_true ht.1, Bool.true_and]
      rfl
  | held => simp [advance, ha, hp] at h
  | asleep alarm =>
    simp [advance, hp] at h
    subst h
    refine ⟨fun _ hc => (by cases hc), fun t' ht' => ?_⟩
    cases ht'
    simpa [isAbove, Countdown.settle_settle] using ht.1

/-- A paused countdown that waits is held. -/
theorem held_of_rest (hp : signals.paused = true) (h : t.advance now signals false = none) : t.phase = .held := by
  rcases t with ⟨countdown, floor, reportAs, phase⟩
  cases phase with
  | top =>
    by_cases left : countdown.remaining ≤ floor <;> by_cases ha : signals.aborted = true <;>
      simp [advance, left, ha, hp] at h
  | held => rfl
  | asleep alarm => simp [advance, hp] at h

/-- Time does not count while a countdown is held. -/
theorem isAbove_of_held (hh : t.phase = .held) (ht : t.isAbove now = true) (now' : Instant) :
    t.isAbove now' = true := by
  rcases t with ⟨⟨remaining, anchor⟩, floor, reportAs, phase⟩
  obtain rfl : phase = .held := hh
  cases anchor with
  | none => exact ht
  | some a => simp [isAbove] at ht

end Ticking

namespace Raised

/-- Whether an alert stays up while it is paused, when notifications may be dismissed and when they are not. -/
def endures (r : Raised) (dismissible : Bool) : Bool := !dismissible || r.notice.isNone

theorem not_isDismissed_of_endures {r : Raised} {d : Devices} {dismissible : Bool} (h : r.endures dismissible = true)
    (up : dismissible = false → ∀ n ∈ r.notice.toList, n ∉ d.board.dismissed) : r.isDismissed d = false := by
  unfold isDismissed NoticeBoard.isDismissed
  cases hn : r.notice with
  | none => rfl
  | some n =>
    cases dismissible with
    | false => exact decide_eq_false (up rfl n (by simp [hn]))
    | true => simp [endures, hn] at h

end Raised

namespace Activity

/-- Whether something is left that a pause at an instant holds back, so that a run does not come to its end
while it is paused: whatever is dismissed meanwhile, or as long as no alert of the run is. -/
def outlasts (dismissible : Bool) (now : Instant) : Activity → Bool
  | done => false
  | ready steps => !steps.isEmpty
  | held steps => !steps.isEmpty
  | within current rest => !rest.isEmpty || current.outlasts dismissible now
  | entering _ => false
  | counting _ t => t.hasTime now
  | sound _ _ .check => true
  | sound _ _ .held => true
  | sound _ _ .begin => false
  | sound _ replays (.playing call) => replays && !call.isOver now
  | notifying _ _ _ => false
  | announcing _ _ _ countdown phase => (!dismissible || !phase.mayShow) && 0 < countdown.remaining
  | alertTop r countdown => r.endures dismissible && 0 < countdown.remaining
  | alertHeld r _ => r.endures dismissible
  | alertRound r t _ => r.endures dismissible && t.isAbove now
  | alertGap r t => r.endures dismissible && t.isAbove now
  | loopTop count children passes => !children.isEmpty && !count.isOver passes
  | loopPass count children passes current =>
    (!children.isEmpty && !count.isOver (passes + 1)) || current.outlasts dismissible now
  | loopYield count children passes => !children.isEmpty && !count.isOver passes
  | parked => true

variable {dismissible : Bool} {c : Circumstances} {d : Devices} {m : Move} {now : Instant}

attribute [local simp] outlasts

theorem not_isDone_of_outlasts {a : Activity} (h : a.outlasts dismissible now = true) : a.isDone = false := by
  cases a <;> first | rfl | cases h

theorem outlasts_wake (dismissible : Bool) (now : Instant) (a : Activity) :
    a.wake.outlasts dismissible now = a.outlasts dismissible now := by
  induction a with
  | within current rest ih => simp only [wake, outlasts, ih]
  | alertRound r t current ih => simp only [wake, outlasts]
  | loopPass count children passes current ih => simp only [wake, outlasts, ih]
  | _ => rfl

/-- After a round of an alert that has time left and stays up, the alert is held. -/
theorem outlasts_afterRound {r : Raised} {countdown : Countdown} (hr : r.endures dismissible = true)
    (ht : 0 < (countdown.settle c.now).remaining) (events : List Event) :
    (r.afterRound countdown c d events).next.outlasts dismissible c.now = true := by
  unfold Raised.afterRound
  dsimp only
  split
  · simp [hr, Ticking.isAbove, Ticking.start, Countdown.settle_settle, ht]
  · simp [hr, ht]

theorem outlasts_alertTop {r : Raised} {countdown : Countdown} (hp : c.signals.paused = true)
    (ha : c.signals.aborted = false) (hr : r.endures dismissible = true) (hd : r.isDismissed d = false)
    (ht : 0 < countdown.remaining) : (advanceAlertTop r countdown c d).next.outlasts dismissible c.now = true := by
  have notExpired : countdown.expired = false := by simpa [Countdown.expired] using ht
  simp [advanceAlertTop, ha, hp, hd, notExpired, hr]

/-- A loop that is not over begins another pass. -/
theorem outlasts_loopTop {count : RepeatCount} {children : List Step} {passes : Nat} (ha : c.signals.aborted = false)
    (more : children.isEmpty = false) (goesOn : count.isOver passes = false) :
    (advanceLoopTop count children passes c d).next.outlasts dismissible c.now = true := by
  cases count with
  | infinite => simp [advanceLoopTop, ha, more]
  | times n =>
    have notOver : ¬ n.toNat ≤ passes := by simpa [RepeatCount.isOver] using goesOn
    simp [advanceLoopTop, ha, notOver, more]

/-- A move of a paused run leaves something that the pause holds back, if there was something: its call was cut,
and no alert that it is in was dismissed, where none may be. -/
theorem outlasts_advance (hp : c.signals.paused = true) (ha : c.signals.aborted = false) {a : Activity}
    (cut : ∀ call, a.call? = some call → d.channel.isCut call.number = true)
    (up : dismissible = false → ∀ n ∈ a.notices, n ∉ d.board.dismissed) (h : a.advance c d = some m)
    (ho : a.outlasts dismissible c.now = true) : m.next.outlasts dismissible c.now = true := by
  induction a generalizing m with
  | done => cases ho
  | ready steps =>
    cases steps with
    | nil => cases ho
    | cons s rest =>
      simp [advance, ha, hp] at h
      subst h; rfl
  | held steps =>
    cases steps with
    | nil => cases ho
    | cons s rest => simp [advance, ha, hp] at h
  | within current rest ih =>
    simp only [outlasts, Bool.or_eq_true] at ho
    rcases advance_within h with ⟨hd, rfl⟩ | ⟨m', hm', rfl⟩
    · rcases ho with ho | ho
      · exact ho
      · rw [not_isDone_of_outlasts ho] at hd; cases hd
    · simp only [outlasts, Bool.or_eq_true]
      exact ho.imp_right fun ho => ih cut up hm' ho
  | entering s => cases ho
  | counting id t =>
    obtain ⟨tm, htm, rfl⟩ := Option.map_eq_some_iff.1 h
    obtain ⟨t', ht', hleft⟩ := Ticking.hasTime_advance hp ha ho htm
    cases tm with
    | ended countdown => cases ht'
    | goes t' => cases ht'; exact hleft
    | ticked t' => cases ht'; exact hleft
  | sound url replays phase =>
    cases phase with
    | check =>
      simp [advance, advanceSound, hp] at h
      subst h; rfl
    | held => simp [advance, advanceSound, hp, ha] at h
    | begin => cases ho
    | playing call =>
      simp only [outlasts, Bool.and_eq_true, Bool.not_eq_true'] at ho
      obtain ⟨replays, past⟩ := ho
      simp [advance, advanceSound, Call.end?_of_isCut (cut call rfl) past, replays, hp, ha] at h
      subst h; rfl
  | notifying n phase grace => cases ho
  | announcing id alert children countdown phase =>
    simp only [outlasts, Bool.and_eq_true, Bool.or_eq_true, Bool.not_eq_true', decide_eq_true_eq] at ho
    obtain ⟨hidden, left⟩ := ho
    obtain ⟨nm, hnm, rfl⟩ := Option.map_eq_some_iff.1 h
    rcases hidden with rfl | hidden
    · -- whether it is shown or not, nobody dismisses it
      cases nm <;> simp [Raised.endures, left]
    · -- a notification that may not be shown is refused, or it fails
      cases phase with
      | asking due permission =>
        have denied : permission ≠ .granted := by simpa [NoticePhase.mayShow] using hidden
        simp only [NoticePhase.advance, if_neg denied] at hnm
        split at hnm <;> cases hnm
        simp [Raised.endures, left]
      | presenting due fails =>
        have failing : fails = true := by simpa [NoticePhase.mayShow] using hidden
        simp only [NoticePhase.advance, failing, if_true] at hnm
        split at hnm <;> cases hnm
        simp [Raised.endures, left]
  | alertTop r countdown =>
    simp only [outlasts, Bool.and_eq_true, decide_eq_true_eq] at ho
    cases h
    exact outlasts_alertTop hp ha ho.1 (r.not_isDismissed_of_endures ho.1 up) ho.2
  | alertHeld r countdown => simp [advance, hp, ha, r.not_isDismissed_of_endures ho up] at h
  | alertRound r t current ih =>
    simp only [outlasts, Bool.and_eq_true] at ho
    obtain ⟨hr, left⟩ := ho
    have own : 0 < (t.countdown.settle c.now).remaining := by
      simp only [Ticking.isAbove, Bool.and_eq_true, decide_eq_true_eq] at left; exact left.1
    rcases advance_alertRound h with ⟨-, rfl⟩ | ⟨m', -, rfl⟩ | h
    · exact outlasts_afterRound hr own _
    · simp [hr, left]
    · obtain ⟨tm, htm, rfl⟩ := Option.map_eq_some_iff.1 h
      rw [r.not_isDismissed_of_endures hr fun hb n hn => up hb n (List.mem_append_left _ hn)] at htm
      obtain ⟨ended, goes⟩ := Ticking.isAbove_advance hp ha left htm
      cases tm with
      | ended countdown => exact outlasts_afterRound hr (ended countdown rfl) _
      | goes t' => simp [hr, goes t' rfl]
      | ticked t' => simp [hr, goes t' rfl]
  | alertGap r t =>
    simp only [outlasts, Bool.and_eq_true] at ho
    obtain ⟨hr, left⟩ := ho
    obtain ⟨tm, htm, rfl⟩ := Option.map_eq_some_iff.1 h
    rw [r.not_isDismissed_of_endures hr up] at htm
    obtain ⟨ended, goes⟩ := Ticking.isAbove_advance hp ha left htm
    cases tm with
    | ended countdown => simp [hr, Countdown.pos_of_settle (ended countdown rfl)]
    | goes t' => simp [hr, goes t' rfl]
    | ticked t' => simp [hr, goes t' rfl]
  | loopTop count children passes =>
    simp only [outlasts, Bool.and_eq_true, Bool.not_eq_true'] at ho
    cases h
    exact outlasts_loopTop ha ho.1 ho.2
  | loopPass count children passes current ih =>
    simp only [outlasts, Bool.or_eq_true] at ho
    rcases advance_loopPass h with ⟨hd, rfl⟩ | ⟨m', hm', rfl⟩
    · rcases ho with ho | ho
      · exact ho
      · rw [not_isDone_of_outlasts ho] at hd; cases hd
    · simp only [outlasts, Bool.or_eq_true]
      exact ho.imp_right fun ho => ih cut up hm' ho
  | loopYield count children passes => cases h
  | parked => simp [advance, ha] at h

/-- What the pause holds back stays when time passes while a paused run waits. -/
theorem outlasts_pass (hp : c.signals.paused = true) {a : Activity}
    (cut : ∀ call, a.call? = some call → d.channel.isCut call.number = true)
    (up : dismissible = false → ∀ n ∈ a.notices, n ∉ d.board.dismissed) (h : a.advance c d = none)
    (ho : a.outlasts dismissible c.now = true) (now' : Instant) : a.outlasts dismissible now' = true := by
  induction a with
  | within current rest ih =>
    simp only [outlasts, Bool.or_eq_true] at ho ⊢
    refine ho.imp_right fun ho => ih cut up ?_ ho
    simpa [advance, not_isDone_of_outlasts ho] using h
  | loopPass count children passes current ih =>
    simp only [outlasts, Bool.or_eq_true] at ho ⊢
    refine ho.imp_right fun ho => ih cut up ?_ ho
    simpa [advance, not_isDone_of_outlasts ho] using h
  | counting id t =>
    have rest : t.advance c.now c.signals false = none := Option.map_eq_none_iff.1 h
    simp [Ticking.hasTime, Ticking.held_of_rest hp rest]
  | sound url replays phase =>
    cases phase with
    | playing call =>
      simp only [outlasts, Bool.and_eq_true, Bool.not_eq_true'] at ho
      simp [advance, advanceSound, Call.end?_of_isCut (cut call rfl) ho.2] at h
    | _ => exact ho
  | alertRound r t current ih =>
    simp only [outlasts, Bool.and_eq_true] at ho ⊢
    have rest : t.advance c.now c.signals false = none := by
      have beside : advanceBeside r t current c d = none := by
        simp only [advance] at h
        split at h
        · cases h
        · split at h <;> simp only [Option.or_eq_none_iff] at h
          · exact h.2
          · exact h.1
      have hd := r.not_isDismissed_of_endures ho.1 fun hb n hn => up hb n (List.mem_append_left _ hn)
      simpa [advanceBeside, hd] using beside
    exact ⟨ho.1, Ticking.isAbove_of_held (Ticking.held_of_rest hp rest) ho.2 now'⟩
  | alertGap r t =>
    simp only [outlasts, Bool.and_eq_true] at ho ⊢
    have rest : t.advance c.now c.signals false = none := by
      simpa [advance, advanceGap, r.not_isDismissed_of_endures ho.1 up] using h
    exact ⟨ho.1, Ticking.isAbove_of_held (Ticking.held_of_rest hp rest) ho.2 now'⟩
  | _ => exact ho

end Activity

end StepTimer
