/-
What cannot come to its end at an instant. While runs move at one instant the time stands still, and so
does what was dismissed (`Moment`). A wait that has time left, an alert that has time left and was not
dismissed, a step that waits for the notifier, and an endless loop then go on for longer (`lasts`), unless
their run was aborted; so do the steps around them, and every move leaves it so.
-/
import StepTimer.Proofs.Engine.Countdowns
import StepTimer.Proofs.Engine.Notices
import StepTimer.Proofs.Time.Occurrence

namespace StepTimer

/-- What stands still while runs move at an instant. -/
structure Moment where
  now : Instant
  dismissed : List Nat

/-- The moment at which devices are used. -/
def Devices.moment (d : Devices) (now : Instant) : Moment := ⟨now, d.board.dismissed⟩

@[simp] theorem Devices.moment_now (d : Devices) (now : Instant) : (d.moment now).now = now := rfl

/-- Whether the notification of an alert was dismissed. -/
def Raised.isOff (r : Raised) (k : Moment) : Bool := r.notice.any fun n => n ∈ k.dismissed

theorem Raised.isDismissed_eq (r : Raised) (d : Devices) (now : Instant) :
    r.isDismissed d = r.isOff (d.moment now) := by
  unfold isDismissed isOff NoticeBoard.isDismissed
  cases r.notice <;> rfl

/-! ## Countdowns -/

namespace Countdown

/-- The milliseconds that are left when the time since the anchor is taken off. -/
def due (c : Countdown) (now : Instant) : Int := (c.settle now).remaining

variable {c : Countdown} {now : Instant}

theorem due_of_anchored (h : c.anchor = some now) : c.due now = max countMin c.remaining := by
  unfold due settle
  rw [h]
  have hzero : min ((now.millisSince now : Nat) : Int) countMax = 0 := by
    rw [now.millisSince_self]
    rfl
  simp only [hzero, Int.sub_zero]

theorem due_start (total : UInt64) (now : Instant) : (start total now).due now = min (total.toNat : Int) countMax := by
  rw [due_of_anchored rfl]
  simp only [start, countMin, countMax]
  omega

/-- Time that has been taken off is not taken off again. -/
theorem due_settle (c : Countdown) (now : Instant) : (c.settle now).due now = c.due now := by
  unfold due
  cases h : c.anchor with
  | none =>
    have hsame : c.settle now = c := by simp [settle, h]
    rw [hsame, hsame]
  | some t =>
    have hanchor : (c.settle now).anchor = some now := by simp [settle, h]
    have hdue := due_of_anchored hanchor
    have hmin : countMin ≤ (c.settle now).remaining := by
      simp only [settle, h]
      exact Int.le_max_left ..
    rw [due] at hdue
    rw [hdue]
    exact Int.max_eq_right hmin

theorem due_suspend (c : Countdown) (now : Instant) : (c.suspend now).due now = c.due now := rfl

theorem due_le_anchorAt (c : Countdown) (now : Instant) : c.due now ≤ (c.anchorAt now).due now := by
  rw [due_of_anchored (c := c.anchorAt now) rfl]
  show (c.settle now).remaining ≤ max countMin c.remaining
  unfold settle
  cases c.anchor with
  | none => exact Int.le_max_right ..
  | some t =>
    simp only [countMin, countMax]
    omega

theorem due_le_resume (c : Countdown) (now : Instant) : c.due now ≤ (c.resume now).due now := by
  unfold resume
  split
  · exact c.due_le_anchorAt now
  · exact Int.le_refl _

/-- A countdown that has time left was not over when the time was last taken off. -/
theorem lt_remaining_of_due {floor : Int} (hf : 0 ≤ floor) (h : floor < c.due now) : floor < c.remaining := by
  unfold due settle at h
  cases hanchor : c.anchor with
  | none =>
    rw [hanchor] at h
    exact h
  | some t =>
    rw [hanchor] at h
    simp only [countMin, countMax] at h
    omega

theorem not_expired_of_due (h : 0 < c.due now) : c.expired = false := by
  have hlt := lt_remaining_of_due (Int.le_refl 0) h
  simpa [expired] using hlt

/-- Taking time off ends no countdown that was over before. -/
theorem expired_settle (h : c.expired = true) : (c.settle now).expired = true := by
  cases hs : (c.settle now).expired with
  | true => rfl
  | false =>
    have hdue : 0 < c.due now := Int.not_le.1 (of_decide_eq_false hs)
    rw [not_expired_of_due hdue] at h
    cases h

theorem expired_resume (c : Countdown) (now : Instant) : (c.resume now).expired = c.expired := by
  unfold resume
  split <;> rfl

end Countdown

namespace Ticking

variable {t : Ticking} {now : Instant} {signals : Signals} {dismissed : Bool} {m : TickMove}

/-- Whether a running countdown has time left. -/
def lasts (t : Ticking) (now : Instant) : Bool := max t.floor 0 < t.countdown.due now

/-- The milliseconds that a running countdown has left: while it is held the time does not count. -/
def left (t : Ticking) (now : Instant) : Int :=
  match t.phase with
  | .held => t.countdown.remaining
  | _ => t.countdown.due now

/-- What is left is no more than what was left when the time was last taken off. -/
theorem lt_remaining_of_left {floor : Int} (hf : 0 ≤ floor) (h : floor < t.left now) :
    floor < t.countdown.remaining := by
  rcases t with ⟨countdown, floor', reportAs, phase⟩
  cases phase with
  | held => exact h
  | top | asleep alarm => exact Countdown.lt_remaining_of_due hf h

theorem left_pos_of_due (h : 0 < t.countdown.due now) : 0 < t.left now := by
  rcases t with ⟨countdown, floor, reportAs, phase⟩
  cases phase with
  | held => exact Countdown.lt_remaining_of_due (Int.le_refl 0) h
  | top | asleep alarm => exact h

theorem lasts_start {c : Countdown} {floor : Int} (reportAs : Option StepId) (hf : floor ≤ 0) (h : 0 < c.due now) :
    (start c floor reportAs).lasts now = true := by
  have hlt : max (max floor 0) 0 < c.due now := by omega
  exact decide_eq_true hlt

/-- A move of a running countdown takes nothing from what is left, and adds none where there is none. -/
theorem left_advance {t' : Ticking} (h : t.advance now signals dismissed = some m) (ht' : m.ticking? = some t') :
    t.left now ≤ t'.left now ∧ (0 < t'.left now → 0 < t.left now) := by
  have anchored (c : Countdown) : (c.anchorAt now).due now = max countMin c.remaining :=
    Countdown.due_of_anchored rfl
  rcases t with ⟨countdown, floor, reportAs, phase⟩
  cases phase with
  | top =>
    simp only [advance] at h
    split at h
    · cases h; cases ht'
    · split at h <;> cases h <;> cases ht'
      · exact ⟨Int.le_refl _, id⟩
      · refine ⟨countdown.due_le_resume now, fun hpos => ?_⟩
        show 0 < countdown.due now
        have hpos : 0 < (countdown.resume now).due now := hpos
        cases ha : countdown.anchor with
        | none =>
          simp only [Countdown.resume, ha, Option.isNone_none, if_true, anchored] at hpos
          simp only [Countdown.due, Countdown.settle, ha]
          simp only [countMin] at hpos
          omega
        | some u => simpa [Countdown.resume, ha] using hpos
  | held =>
    simp only [advance] at h
    split at h <;> cases h
    cases ht'
    simp only [left, anchored, countMin]
    omega
  | asleep alarm =>
    simp only [advance] at h
    split at h <;> cases h
    cases ht'
    have same : (countdown.settle now).due now = countdown.due now := countdown.due_settle now
    simp only [left, same]
    exact ⟨Int.le_refl _, id⟩

/-- A move of a running countdown takes nothing from what is left; it ends by an abort, by a dismissal,
or at its floor. -/
theorem advance_due (h : t.advance now signals dismissed = some m) :
    (m = .ended t.countdown ∧ (signals.aborted = true ∨ t.countdown.remaining ≤ t.floor ∨ dismissed = true)) ∨
      ∃ t', m.ticking? = some t' ∧ t'.floor = t.floor ∧ t.countdown.due now ≤ t'.countdown.due now ∧
        (t.countdown.expired = true → t'.countdown.expired = true) ∧
        t.left now ≤ t'.left now ∧ (0 < t'.left now → 0 < t.left now) := by
  have hleft {t' : Ticking} (ht' : m.ticking? = some t') := left_advance h ht'
  unfold advance at h
  split at h
  · split at h
    · rename_i hend
      cases h
      simp only [Bool.or_eq_true, decide_eq_true_eq] at hend
      exact Or.inl ⟨rfl, or_assoc.1 hend⟩
    · split at h <;> cases h
      · exact Or.inr ⟨_, rfl, rfl, Int.le_of_eq (Countdown.due_suspend ..).symm, Countdown.expired_settle, hleft rfl⟩
      · exact Or.inr ⟨_, rfl, rfl, Countdown.due_le_resume .., fun hx => (Countdown.expired_resume ..).trans hx,
          hleft rfl⟩
  · split at h <;> cases h
    exact Or.inr ⟨_, rfl, rfl, Countdown.due_le_anchorAt .., id, hleft rfl⟩
  · split at h <;> cases h
    exact Or.inr ⟨_, rfl, rfl, Int.le_of_eq (Countdown.due_settle ..).symm, Countdown.expired_settle, hleft rfl⟩

theorem lasts_of_due {t t' : Ticking} (h : t.lasts now = true) (hf : t'.floor = t.floor)
    (hd : t.countdown.due now ≤ t'.countdown.due now) : t'.lasts now = true := by
  simp only [lasts, decide_eq_true_eq, hf] at h ⊢
  exact Int.lt_of_lt_of_le h hd

theorem due_pos_of_lasts (h : t.lasts now = true) : 0 < t.countdown.due now := by
  simp only [lasts, decide_eq_true_eq] at h
  omega

/-- A countdown that has time left does not end by itself. -/
theorem not_ended_of_lasts (h : t.lasts now = true) : ¬ t.countdown.remaining ≤ t.floor := by
  simp only [lasts, decide_eq_true_eq] at h
  have hlt := Countdown.lt_remaining_of_due (Int.le_max_right t.floor 0) h
  omega

end Ticking

/-! ## Notifications on their way -/

/-- Whether the notifier is due to answer. -/
def NoticePhase.isDue (phase : NoticePhase) (now : Instant) : Bool := phase.due.any fun t => t.nanos ≤ now.nanos

theorem NoticePhase.isDue_eq (phase : NoticePhase) (c : Circumstances) : phase.isDue c.now = c.hasCome phase.due := by
  unfold isDue
  cases phase.due <;> rfl

/-- A notification on its way goes on when the notifier answers. -/
theorem NoticePhase.isDue_of_advance {c : Circumstances} {d : Devices} {phase : NoticePhase} {m : NoticeMove}
    (h : phase.advance c d = some m) : phase.isDue c.now = true :=
  (phase.isDue_eq c).trans (NoticePhase.advance_cases h).1

/-! ## Steps -/

namespace RepeatCount

/-- Whether there is another pass after so many. -/
def exceeds : RepeatCount → Nat → Bool
  | infinite, _ => true
  | times n, passes => passes < n.toNat

end RepeatCount

namespace Step

mutual

/-- Whether a step cannot come to its end at the instant at which it begins. -/
def takesTime : Step → Bool
  | leaf _ (.wait amount unit) => 0 < (unit.durationMillis amount).toNat
  | leaf _ (.waitUntil _ _) => true
  | leaf _ _ => false
  | block _ (.notifyUntil alert) _ => 0 < alert.timeout.toNat
  | block _ (.loop .infinite) _ => true
  | block _ (.loop (.times n)) children => 0 < n.toNat && takesTimeIn children

/-- Whether some step of a list cannot come to its end at the instant at which it begins. -/
def takesTimeIn : List Step → Bool
  | [] => false
  | s :: rest => takesTime s || takesTimeIn rest

end

theorem takesTime_loop (id : StepId) (count : RepeatCount) (children : List Step) :
    (block id (.loop count) children).takesTime =
      (decide (count = .infinite) || takesTimeIn children && count.exceeds 0) := by
  cases count with
  | infinite => rfl
  | times n => simp [takesTime, RepeatCount.exceeds, Bool.and_comm]

end Step

/-! ## Activities -/

/-- Whether an alert has time left and was not dismissed. -/
def Raised.hasTime (r : Raised) (k : Moment) (countdown : Countdown) : Bool :=
  decide (0 < countdown.due k.now) && !r.isOff k

theorem Raised.hasTime_iff {r : Raised} {k : Moment} {countdown : Countdown} :
    r.hasTime k countdown = true ↔ 0 < countdown.due k.now ∧ r.isOff k = false := by
  simp only [hasTime, Bool.and_eq_true, decide_eq_true_eq, Bool.not_eq_true']

namespace Activity

variable {c : Circumstances} {d : Devices} {m : Move} {k : Moment}

/-- Whether an activity cannot come to its end at a moment, unless it is aborted. -/
def lasts (k : Moment) : Activity → Bool
  | done => false
  | ready steps => Step.takesTimeIn steps
  | held steps => Step.takesTimeIn steps
  | within current rest => current.lasts k || Step.takesTimeIn rest
  | entering s => s.takesTime
  | counting _ t => t.lasts k.now
  | sound _ _ _ => false
  | notifying _ phase grace => !phase.isDue k.now && decide (k.now.nanos < grace.nanos)
  | announcing _ _ _ countdown phase => !phase.isDue k.now || decide (0 < countdown.due k.now)
  | alertTop r countdown => r.hasTime k countdown
  | alertHeld r countdown => r.hasTime k countdown
  | alertRound r t _ => t.lasts k.now && !r.isOff k
  | alertGap r t => r.hasTime k t.countdown
  | loopTop count children passes => decide (count = .infinite) || Step.takesTimeIn children && count.exceeds passes
  | loopPass count children passes current =>
    decide (count = .infinite) || current.lasts k || Step.takesTimeIn children && count.exceeds (passes + 1)
  | loopYield count children passes => decide (count = .infinite) || Step.takesTimeIn children && count.exceeds passes
  | parked => true

theorem not_isDone_of_lasts {a : Activity} (h : a.lasts k = true) : a.isDone = false := by
  cases a with
  | done => cases h
  | _ => rfl

theorem lasts_wake (a : Activity) : a.wake.lasts k = a.lasts k := by
  induction a with
  | within current rest ih => exact congrArg (· || Step.takesTimeIn rest) ih
  | loopPass count children passes current ih => simp only [wake, lasts, ih]
  | _ => rfl

/-! ### What the moves of alerts and waits are, with the time that is left -/

theorem afterRound_due (r : Raised) (countdown : Countdown) (c : Circumstances) (d : Devices) (events : List Event) :
    (r.afterRound countdown c d events).devices = d ∧ ∃ settled : Countdown,
      settled.due c.now = countdown.due c.now ∧ settled.remaining = countdown.due c.now ∧
        ((0 < r.alert.intervalMs.toNat ∧ settled.expired = false ∧ ∃ floor,
            floor = settled.remaining - min (r.alert.intervalMs.toNat : Int) countMax ∧
            (r.afterRound countdown c d events).next = alertGap r (.start settled floor (some r.id))) ∨
          (0 < r.alert.intervalMs.toNat → settled.expired = true) ∧
            (r.afterRound countdown c d events).next = alertTop r settled) := by
  unfold Raised.afterRound
  dsimp only
  split
  · rename_i h
    exact ⟨rfl, _, Countdown.due_settle .., rfl, Or.inl ⟨h.1, by simpa using h.2, _, rfl, rfl⟩⟩
  · rename_i h
    refine ⟨rfl, _, Countdown.due_settle .., rfl, Or.inr ⟨fun hpos => ?_, rfl⟩⟩
    simpa [hpos] using h

theorem alertTop_due (r : Raised) (countdown : Countdown) (c : Circumstances) (d : Devices) :
    (advanceAlertTop r countdown c d = r.finish c d ∧
      (c.signals.aborted = true ∨ r.isOff (d.moment c.now) = true ∨ countdown.expired = true)) ∨
    (c.signals.aborted = false ∧ r.isOff (d.moment c.now) = false ∧ countdown.expired = false) ∧
      (advanceAlertTop r countdown c d = ⟨alertHeld r (countdown.suspend c.now), d, []⟩ ∨
        advanceAlertTop r countdown c d = ⟨alertRound r (.start countdown 0 r.reportAs) (r.round c), d, []⟩) := by
  unfold advanceAlertTop
  rw [r.isDismissed_eq d c.now]
  split
  · rename_i h
    simp only [Bool.or_eq_true] at h
    exact Or.inl ⟨rfl, or_assoc.1 h⟩
  · rename_i h
    simp only [Bool.or_eq_true, not_or, Bool.not_eq_true] at h
    refine Or.inr ⟨⟨h.1.1, h.1.2, h.2⟩, ?_⟩
    split
    · exact Or.inl rfl
    · exact Or.inr rfl

theorem beside_due {r : Raised} {t : Ticking} {current : Activity} (h : advanceBeside r t current c d = some m) :
    (m = r.afterRound t.countdown c (c.silence d) current.dropEvents ∧
      (c.signals.aborted = true ∨ t.countdown.remaining ≤ t.floor ∨ r.isOff (d.moment c.now) = true)) ∨
    ∃ t', m.next = alertRound r t' current ∧ m.devices = d ∧ t'.floor = t.floor ∧
      t.countdown.due c.now ≤ t'.countdown.due c.now ∧ (t.countdown.expired = true → t'.countdown.expired = true) ∧
      t.left c.now ≤ t'.left c.now ∧ (0 < t'.left c.now → 0 < t.left c.now) := by
  obtain ⟨tm, htm, rfl⟩ := Option.map_eq_some_iff.1 h
  rw [r.isDismissed_eq d c.now] at htm
  rcases Ticking.advance_due htm with ⟨rfl, hcause⟩ | ⟨t', ht', hfloor, hdue⟩
  · exact Or.inl ⟨rfl, hcause⟩
  · cases tm <;> cases ht' <;> exact Or.inr ⟨_, rfl, rfl, hfloor, hdue⟩

theorem gap_due {r : Raised} {t : Ticking} (h : (alertGap r t).advance c d = some m) :
    m.devices = d ∧ ((m.next = alertTop r t.countdown ∧
        (c.signals.aborted = true ∨ t.countdown.remaining ≤ t.floor ∨ r.isOff (d.moment c.now) = true)) ∨
      ∃ t', m.next = alertGap r t' ∧ t'.floor = t.floor ∧ t.countdown.due c.now ≤ t'.countdown.due c.now ∧
        (t.countdown.expired = true → t'.countdown.expired = true) ∧
        t.left c.now ≤ t'.left c.now ∧ (0 < t'.left c.now → 0 < t.left c.now)) := by
  obtain ⟨tm, htm, rfl⟩ := Option.map_eq_some_iff.1 h
  rw [r.isDismissed_eq d c.now] at htm
  rcases Ticking.advance_due htm with ⟨rfl, hcause⟩ | ⟨t', ht', hfloor, hdue⟩
  · exact ⟨rfl, Or.inl ⟨rfl, hcause⟩⟩
  · cases tm <;> cases ht' <;> exact ⟨rfl, Or.inr ⟨_, rfl, hfloor, hdue⟩⟩

theorem counting_due {id : StepId} {t : Ticking} (h : (counting id t).advance c d = some m) :
    m.devices = d ∧ ((m.next = done ∧ (c.signals.aborted = true ∨ t.countdown.remaining ≤ t.floor)) ∨
      ∃ t', m.next = counting id t' ∧ t'.floor = t.floor ∧ t.countdown.due c.now ≤ t'.countdown.due c.now) := by
  obtain ⟨tm, htm, rfl⟩ := Option.map_eq_some_iff.1 h
  rcases Ticking.advance_due htm with ⟨rfl, hcause⟩ | ⟨t', ht', hfloor, hdue, -⟩
  · exact ⟨rfl, Or.inl ⟨rfl, by simpa using hcause⟩⟩
  · cases tm <;> cases ht' <;> exact ⟨rfl, Or.inr ⟨_, rfl, hfloor, hdue⟩⟩

/-! ### What lasts goes on lasting -/

theorem lasts_beginStep {s : Step} (h : s.takesTime = true) : (beginStep c d s).next.lasts (d.moment c.now) = true := by
  have hstart {total : UInt64} (hpos : 0 < total.toNat) : 0 < (Countdown.start total c.now).due c.now := by
    rw [Countdown.due_start]
    simp only [countMax]
    omega
  have hwait (total : UInt64) (id : StepId) (hpos : 0 < total.toNat) :
      (counting id (.start (.start total c.now) 0 (some id))).lasts (d.moment c.now) = true :=
    Ticking.lasts_start _ (Int.le_refl 0) (hstart hpos)
  cases s with
  | leaf id action =>
    cases action with
    | wait amount unit => exact hwait _ id (of_decide_eq_true h)
    | waitUntil time half =>
      refine hwait _ id ?_
      have hpos := millisUntilClock_pos (sanitizeTime time "12:00") half (c.equipment.wall c.now)
      have hle := millisUntilClock_le (sanitizeTime time "12:00") half (c.equipment.wall c.now)
      rw [UInt64.toNat_ofNat', Nat.mod_eq_of_lt (Nat.lt_of_le_of_lt hle (by decide))]
      exact hpos
    | _ => cases h
  | block id frame children =>
    cases frame with
    | notifyUntil alert =>
      exact Bool.or_eq_true_iff.2 (Or.inr (decide_eq_true (hstart (of_decide_eq_true h))))
    | loop count =>
      rw [Step.takesTime_loop] at h
      rcases beginLoop_cases id count children c d with he | ⟨rfl, ⟨-, he⟩ | ⟨hne, -⟩⟩
      · rw [he]
        exact h
      · rw [he]
        rfl
      · simp [hne, Step.takesTimeIn] at h

theorem lasts_round (r : Raised) (c : Circumstances) (k : Moment) :
    (r.round c).lasts k = Step.takesTimeIn r.children := by
  unfold Raised.round
  cases r.children <;> rfl

/-- A loop goes on to its next pass as long as there is one. -/
theorem loopTop_exceeds {count : RepeatCount} {passes : Nat} (children : List Step) (ha : c.signals.aborted = false) :
    advanceLoopTop count children passes c d =
      if count.exceeds passes then ⟨loopPass count children passes (ready children), d, []⟩ else ⟨done, d, []⟩ := by
  unfold advanceLoopTop
  cases count with
  | infinite => simp [ha, RepeatCount.exceeds]
  | times n => by_cases hlt : passes < n.toNat <;> simp [ha, RepeatCount.exceeds, hlt]

theorem exceeds_of_lasts {count : RepeatCount} {children : List Step} {passes : Nat}
    (h : (loopTop count children passes).lasts k = true) : count.exceeds passes = true := by
  simp only [lasts, Bool.or_eq_true, Bool.and_eq_true, decide_eq_true_eq] at h
  rcases h with rfl | h
  · rfl
  · exact h.2

/-- What cannot come to its end does not, by a move of a run that is not aborted. The notifications that
were dismissed are some of those that were shown, so an alert that goes up now has not been. -/
theorem lasts_advance {a : Activity} (ha : c.signals.aborted = false)
    (hshown : ∀ n ∈ d.board.dismissed, n < d.board.shown) (hl : a.lasts (d.moment c.now) = true)
    (h : a.advance c d = some m) : m.next.lasts (d.moment c.now) = true := by
  induction a generalizing m with
  | done => cases h
  | ready steps =>
    cases steps with
    | nil => cases hl
    | cons s rest =>
      rw [advance, if_neg (by simp [ha])] at h
      split at h <;> cases h <;> exact hl
  | held steps =>
    rcases advance_held h with rfl | ⟨-, s, rest, rfl, rfl⟩
    · cases steps with
      | nil => cases hl
      | cons s rest => simp [advance, ha, activate] at h
    · exact hl
  | within current rest ih =>
    rw [lasts, Bool.or_eq_true] at hl
    rcases advance_within h with ⟨hd, rfl⟩ | ⟨m', hm', rfl⟩
    · refine hl.resolve_left fun hcur => ?_
      rw [not_isDone_of_lasts hcur] at hd
      cases hd
    · rw [lasts, Bool.or_eq_true]
      exact hl.imp_left fun hcur => ih hcur hm'
  | entering s =>
    cases h
    exact lasts_beginStep hl
  | counting id t =>
    obtain ⟨-, ⟨-, hcause⟩ | ⟨t', hnext, hfloor, hdue⟩⟩ := counting_due h
    · rw [ha] at hcause
      exact absurd (hcause.resolve_left (by simp)) (Ticking.not_ended_of_lasts hl)
    · rw [hnext]
      exact Ticking.lasts_of_due hl hfloor hdue
  | sound url replays phase => cases hl
  | notifying n phase grace =>
    -- it is waited for, and it has not been given up
    simp only [lasts, Devices.moment_now, Bool.and_eq_true, Bool.not_eq_true'] at hl
    have waits : phase.advance c d = none := Option.eq_none_iff_forall_ne_some.2 fun nm hnm => by
      have hdue := NoticePhase.isDue_of_advance hnm
      rw [hl.1] at hdue
      cases hdue
    rw [advance, advanceNotice, waits] at h
    dsimp only at h
    rw [if_neg (Nat.not_le.2 (of_decide_eq_true hl.2))] at h
    cases h
  | announcing id alert children countdown phase =>
    obtain ⟨nm, hp, rfl⟩ := Option.map_eq_some_iff.1 h
    rw [lasts, Devices.moment_now, NoticePhase.isDue_of_advance hp, Bool.not_true, Bool.false_or] at hl
    have left : 0 < countdown.due c.now := of_decide_eq_true hl
    cases nm with
    | goes phase' d' => exact Bool.or_eq_true_iff.2 (Or.inr (decide_eq_true left))
    | shown notice d' =>
      refine Raised.hasTime_iff.2 ⟨left, ?_⟩
      cases hn : notice with
      | none => rfl
      | some n =>
        have hnew := (NoticePhase.advance_shown hp).2 n hn
        refine decide_eq_false fun hmem => ?_
        exact absurd (hshown n hmem) (by omega)
    | refused d' => exact Raised.hasTime_iff.2 ⟨left, rfl⟩
  | alertTop r countdown =>
    cases h
    obtain ⟨hdue, hoff⟩ := Raised.hasTime_iff.1 hl
    rcases alertTop_due r countdown c d with ⟨-, hcause⟩ | ⟨-, h | h⟩
    · rw [ha, hoff, Countdown.not_expired_of_due hdue] at hcause
      simp at hcause
    · rw [h]
      exact Raised.hasTime_iff.2 ⟨by rwa [d.moment_now, countdown.due_suspend], hoff⟩
    · rw [h]
      simpa [lasts] using ⟨Ticking.lasts_start r.reportAs (Int.le_refl 0) hdue, hoff⟩
  | alertHeld r countdown =>
    rw [advance_alertHeld h]
    exact hl
  | alertRound r t current ih =>
    rw [lasts, Bool.and_eq_true, Bool.not_eq_true'] at hl
    -- after the round the same time is left
    have hafter (d' : Devices) (events : List Event) :
        (r.afterRound t.countdown c d' events).next.lasts (d.moment c.now) = true := by
      obtain ⟨-, settled, hdue, -, hnext⟩ := afterRound_due r t.countdown c d' events
      have htime : r.hasTime (d.moment c.now) settled = true :=
        Raised.hasTime_iff.2 ⟨hdue ▸ Ticking.due_pos_of_lasts hl.1, hl.2⟩
      rcases hnext with ⟨-, -, floor, -, hnext⟩ | ⟨-, hnext⟩ <;> rw [hnext] <;> exact htime
    rcases advance_alertRound h with ⟨-, rfl⟩ | ⟨m', hm', rfl⟩ | h
    · exact hafter d []
    · simpa [lasts] using hl
    · rcases beside_due h with ⟨-, hcause⟩ | ⟨t', hnext, -, hfloor, hdue, -⟩
      · rw [ha, hl.2] at hcause
        simp [Ticking.not_ended_of_lasts hl.1] at hcause
      · rw [hnext]
        simpa [lasts] using ⟨Ticking.lasts_of_due hl.1 hfloor hdue, hl.2⟩
  | alertGap r t =>
    obtain ⟨hleft, hoff⟩ := Raised.hasTime_iff.1 hl
    obtain ⟨-, ⟨hnext, -⟩ | ⟨t', hnext, -, hdue, -⟩⟩ := gap_due h
    · rw [hnext]
      exact hl
    · rw [hnext]
      exact Raised.hasTime_iff.2 ⟨Int.lt_of_lt_of_le hleft hdue, hoff⟩
  | loopTop count children passes =>
    cases h
    rw [loopTop_exceeds children ha, if_pos (exceeds_of_lasts hl)]
    simp only [lasts, Bool.or_eq_true, Bool.and_eq_true] at hl ⊢
    rcases hl with hl | hl
    · exact Or.inl (Or.inl hl)
    · exact Or.inl (Or.inr hl.1)
  | loopPass count children passes current ih =>
    simp only [lasts, Bool.or_eq_true, Bool.and_eq_true] at hl
    rcases advance_loopPass h with ⟨hd, rfl⟩ | ⟨m', hm', rfl⟩
    · have hcur : ¬ current.lasts (d.moment c.now) = true := fun hcur => by
        rw [not_isDone_of_lasts hcur] at hd
        cases hd
      simp only [lasts, Bool.or_eq_true, Bool.and_eq_true]
      exact hl.imp_left fun hor => hor.resolve_right hcur
    · simp only [lasts, Bool.or_eq_true, Bool.and_eq_true]
      exact hl.imp_left fun hor => hor.imp_right fun hcur => ih hcur hm'
  | loopYield count children passes => cases h
  | parked =>
    simp only [advance, ha] at h
    cases h

end Activity

end StepTimer
