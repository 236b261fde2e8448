/-
How many moves a run makes at an instant (`stirs`). Each move leaves fewer of them before the run waits, as
long as every round of an alert is paced: by the interval after it, or by something in it that takes time.
A round that nothing paces is followed by the next one at the same instant, and that alone can go on for
ever (`Opens`).
-/
import StepTimer.Proofs.Engine.Blocks
import StepTimer.Proofs.Engine.Held

namespace StepTimer

/-! ## Countdowns and counts -/

/-- Whether an instant has come. -/
def Moment.hasCome (k : Moment) (t : Instant) : Bool := t.nanos ≤ k.now.nanos

@[simp] theorem Devices.hasCome_moment (d : Devices) (now t : Instant) :
    (d.moment now).hasCome t = decide (t.nanos ≤ now.nanos) := rfl

namespace Ticking

/-- Whether a running countdown is still short of its floor when the time since its anchor is taken off. -/
def isShort (t : Ticking) (now : Instant) : Bool := t.floor < t.countdown.due now

/-- The moves of a running countdown at an instant, before it waits or ends; a dismissal lets it go on. -/
def stirs (k : Scene) (off : Bool) (t : Ticking) : Nat :=
  match t.phase with
  | .top => 1
  | .held => bif !k.paused || off then 2 else 0
  | .asleep alarm => bif k.toMoment.hasCome alarm || k.paused || off then 2 else 0

variable {c : Circumstances} {d : Devices} {h : Hearing} {t : Ticking} {off : Bool} {m : TickMove}

section

variable (countdown : Countdown) (floor : Int) (reportAs : Option StepId)

@[simp] theorem stirs_start (k : Scene) (off : Bool) : (start countdown floor reportAs).stirs k off = 1 := rfl

@[simp] theorem floor_start : (start countdown floor reportAs).floor = max floor 0 := rfl

@[simp] theorem countdown_start : (start countdown floor reportAs).countdown = countdown := rfl

end

/-- Each move of a running countdown leaves fewer of them. -/
theorem stirs_advance (ha : c.signals.aborted = false) (hm : t.advance c.now c.signals off = some m) :
    0 < t.stirs (c.scene d h) off ∧ ∀ t', m.ticking? = some t' → t'.stirs (c.scene d h) off < t.stirs (c.scene d h) off := by
  unfold advance at hm
  split at hm <;> rename_i hphase
  · refine ⟨by simp [stirs, hphase], fun t' ht' => ?_⟩
    split at hm
    · cases hm
      cases ht'
    · rename_i hgo
      simp only [ha, Bool.false_or, Bool.or_eq_true, decide_eq_true_eq, not_or, Bool.not_eq_true] at hgo
      split at hm <;> cases hm <;> cases ht'
      · rename_i hpaused
        simp [stirs, hphase, hpaused, hgo.2]
      · rename_i hpaused
        -- the tick that begins is at least a millisecond long
        have htick : 0 < t.tick.toNat := by
          simp only [tick, tickMs]
          omega
        have hlater : decide ((c.now.plusMillis t.tick.toNat).nanos ≤ c.now.nanos) = false :=
          decide_eq_false (Nat.not_le.2 (Nat.lt_add_of_pos_right (Nat.mul_pos htick (by decide))))
        simp [stirs, hphase, hpaused, hgo.2, hlater]
  · split at hm <;> cases hm
    rename_i hgo
    have htwo : t.stirs (c.scene d h) off = 2 := by
      have hfree : (!c.signals.paused || off) = true := by simpa [ha] using hgo
      simp [stirs, hphase, hfree]
    rw [htwo]
    exact ⟨by decide, fun t' ht' => by cases ht'; exact Nat.one_lt_two⟩
  · split at hm <;> cases hm
    rename_i hgo
    have htwo : t.stirs (c.scene d h) off = 2 := by
      rw [ha, Bool.or_false] at hgo
      simp [stirs, hphase, hgo]
    rw [htwo]
    exact ⟨by decide, fun t' ht' => by cases ht'; exact Nat.one_lt_two⟩

end Ticking

namespace RepeatCount

/-- The passes of a loop that are left after so many, when they are counted. -/
def later : RepeatCount → Nat → Nat
  | infinite, _ => 0
  | times n, passes => n.toNat - passes

/-- The moves of a loop about to decide on its next pass, from those of the steps in it. -/
def stirs (count : RepeatCount) (pass passes : Nat) : Nat :=
  (bif count.exceeds passes then pass + 4 else 0) + count.later (passes + 1) * (pass + 4) + 1

/-- A loop with a count that lets others go first has the next pass still to come. -/
theorem stirs_lt {count : RepeatCount} (hcount : count ≠ infinite) (pass passes : Nat) :
    count.stirs pass passes < count.later passes * (pass + 4) + 2 := by
  cases count with
  | infinite => exact absurd rfl hcount
  | times n =>
    simp only [stirs, exceeds, later]
    by_cases hlt : passes < n.toNat
    · have hleft : n.toNat - passes = n.toNat - (passes + 1) + 1 := by omega
      rw [decide_eq_true hlt, cond_true, hleft, Nat.succ_mul]
      omega
    · have hnone : n.toNat - (passes + 1) = 0 := by omega
      rw [decide_eq_false hlt, cond_false, hnone]
      omega

end RepeatCount

/-! ## Steps -/

namespace Raised

/-- Whether something paces the rounds of an alert: the interval after each, or what is in them. -/
def isPaced (r : Raised) (h : Hearing) : Bool := decide (0 < r.alert.intervalMs.toNat) || r.holdsUp h

end Raised

/-- The moves of an alert about to decide on its next round, from those of a round. -/
def roundsStirs (paced : Bool) (round : Nat) : Nat := bif paced then round + 6 else 1

theorem roundsStirs_pos (paced : Bool) (round : Nat) : 0 < roundsStirs paced round := by
  cases paced
  · exact Nat.one_pos
  · exact Nat.succ_pos _

namespace Step

mutual

/-- The moves of a step that has just become active, at that instant. -/
def stirs (h : Hearing) : Step → Nat
  | leaf _ _ => 5
  | block id (.notifyUntil alert) children =>
    roundsStirs (Raised.isPaced ⟨id, alert, children, none⟩ h) (bif children.isEmpty then 3 else stirsOf h children) + 3
  | block _ (.loop count) children => count.stirs (stirsOf h children) 0 + 1

/-- The moves of a list of steps at an instant. -/
def stirsOf (h : Hearing) : List Step → Nat
  | [] => 1
  | s :: rest => stirs h s + stirsOf h rest + 2

end

end Step

namespace Raised

/-- The moves of a round of an alert. -/
def roundStirs (r : Raised) (h : Hearing) : Nat := bif r.children.isEmpty then 3 else Step.stirsOf h r.children

/-- The moves of an alert about to decide on its next round. -/
def stirs (r : Raised) (h : Hearing) : Nat := roundsStirs (r.isPaced h) (r.roundStirs h)

/-- The moves of an alert after a round, from whether that was the last one. -/
def restStirs (r : Raised) (h : Hearing) (last : Bool) : Nat :=
  if 0 < r.alert.intervalMs.toNat then 2 else bif last then 1 else r.stirs h

variable (r : Raised) (h : Hearing)

theorem stirs_pos : 0 < r.stirs h := roundsStirs_pos _ _

theorem restStirs_mono {last last' : Bool} (hl : last = true → last' = true) :
    r.restStirs h last' ≤ r.restStirs h last := by
  have hpos := r.stirs_pos h
  cases last with
  | true => exact Nat.le_of_eq (by rw [hl rfl])
  | false =>
    unfold restStirs
    split
    · exact Nat.le_refl 2
    · cases last'
      · exact Nat.le_refl _
      · exact hpos

/-- What paces the rounds of an alert keeps the next one off that instant. -/
theorem restStirs_of_isPaced (hp : r.isPaced h = true) : r.restStirs h (r.holdsUp h) ≤ 2 := by
  unfold restStirs
  split
  · exact Nat.le_refl 2
  · rename_i hno
    have hholds : r.holdsUp h = true := by simpa [isPaced, hno] using hp
    rw [hholds]
    exact Nat.le_succ 1

end Raised

/-! ## Activities -/

namespace Activity

variable {c : Circumstances} {d : Devices} {m : Move} {h : Hearing}

/-- The moves of an activity at an instant, before it waits. -/
def stirs (k : Scene) : Activity → Nat
  | done => 0
  | ready steps => Step.stirsOf k.toHearing steps
  | held steps => bif k.paused && !steps.isEmpty then 0 else Step.stirsOf k.toHearing steps
  | within current rest => current.stirs k + Step.stirsOf k.toHearing rest + 1
  | entering s => s.stirs k.toHearing
  | counting _ t => t.stirs k false + 1
  | sound _ _ .check => bif k.paused then 1 else 4
  | sound _ _ .held => bif k.paused then 0 else 4
  | sound _ _ .begin => 3
  | sound _ _ (.playing _) => 2
  | notifying _ (.asking _ _) _ => 2
  | notifying _ (.presenting _ _) _ => 1
  | announcing id alert children _ (.asking _ _) => Raised.stirs ⟨id, alert, children, none⟩ k.toHearing + 2
  | announcing id alert children _ (.presenting _ _) => Raised.stirs ⟨id, alert, children, none⟩ k.toHearing + 1
  | alertTop r countdown => bif countdown.expired || r.isOff k.toMoment then 1 else r.stirs k.toHearing
  | alertHeld r countdown =>
    bif k.paused && !r.isOff k.toMoment then 0
    else (bif countdown.expired || r.isOff k.toMoment then 1 else r.stirs k.toHearing) + 1
  | alertRound r t current =>
    current.stirs k + t.stirs k (r.isOff k.toMoment) + 1 +
      r.restStirs k.toHearing (current.holdsUp k && decide (t.floor ≤ 0))
  | alertGap r t =>
    t.stirs k (r.isOff k.toMoment) + 1 +
      (bif r.isOff k.toMoment || t.isShort k.now then 0 else r.stirs k.toHearing)
  | loopTop count children passes => count.stirs (Step.stirsOf k.toHearing children) passes
  | loopPass count children passes current =>
    current.stirs k + count.later (passes + 1) * (Step.stirsOf k.toHearing children + 4) + 3
  | loopYield count children passes => count.later passes * (Step.stirsOf k.toHearing children + 4) + 2
  | parked => 0

attribute [local simp] stirs

/-- A move that begins another round of an alert whose rounds are not paced. -/
inductive Opens (h : Hearing) : Activity → Activity → Prop
  | top {r : Raised} {countdown : Countdown} {t : Ticking} {current : Activity} (hr : r.isPaced h = false) :
      Opens h (alertTop r countdown) (alertRound r t current)
  | within {a b : Activity} (rest : List Step) (ho : Opens h a b) : Opens h (within a rest) (within b rest)
  | round {a b : Activity} (r : Raised) (t : Ticking) (ho : Opens h a b) : Opens h (alertRound r t a) (alertRound r t b)
  | pass {a b : Activity} (count : RepeatCount) (children : List Step) (passes : Nat) (ho : Opens h a b) :
      Opens h (loopPass count children passes a) (loopPass count children passes b)

theorem stirs_beginStep (k : Scene) (s : Step) : (beginStep c d s).next.stirs k < s.stirs k.toHearing := by
  cases s with
  | leaf id action =>
    cases action with
    | wait amount unit => exact (by decide : 2 < 5)
    | waitUntil time half => exact (by decide : 2 < 5)
    | playSound spec => cases hp : k.paused <;> simp [beginStep, beginAction, Step.stirs, hp]
    | playSoundUntil spec => cases hp : k.paused <;> simp [beginStep, beginAction, Step.stirs, hp]
    | notify title body => exact (by decide : 2 < 5)
    | unknown => exact (by decide : 0 < 5)
  | block id frame children =>
    cases frame with
    | notifyUntil alert => exact Nat.lt_succ_self _
    | loop count =>
      rcases beginLoop_cases id count children c d with hb | ⟨-, ⟨-, hb⟩ | ⟨-, hb⟩⟩ <;> rw [hb]
      · exact Nat.lt_succ_self _
      · exact Nat.succ_pos _
      · exact Nat.succ_pos _

theorem stirs_round (k : Scene) (r : Raised) : (r.round c).stirs k = r.roundStirs k.toHearing := by
  unfold Raised.round Raised.roundStirs
  cases r.children <;> rfl

/-- What comes after a round is at most what is left to an alert: the wait for its interval, or its end if
it has run out or was dismissed, or another round. -/
theorem stirs_afterRound {k : Scene} (hk : k.now = c.now) (r : Raised) {countdown : Countdown} {last : Bool}
    (hlast : last = true → countdown.due c.now ≤ 0 ∨ r.isOff k.toMoment = true) (d : Devices) (events : List Event) :
    (r.afterRound countdown c d events).next.stirs k ≤ r.restStirs k.toHearing last := by
  obtain ⟨-, settled, hdue, hrem, ⟨hpos, hgo, floor, rfl, hnext⟩ | ⟨hover, hnext⟩⟩ :=
    afterRound_due r countdown c d events
  · have hlt : max (settled.remaining - min (r.alert.intervalMs.toNat : Int) countMax) 0 < settled.due c.now := by
      have hrempos : 0 < settled.remaining := by simpa [Countdown.expired] using hgo
      simp only [countMax]
      omega
    rw [hnext, Raised.restStirs, if_pos hpos]
    simp [Ticking.isShort, hk, hlt]
  · rw [hnext, Raised.restStirs]
    simp only [stirs]
    have htop := r.stirs_pos k.toHearing
    by_cases hpos : 0 < r.alert.intervalMs.toNat
    · rw [hover hpos, if_pos hpos]
      exact Nat.le_succ 1
    · rw [if_neg hpos]
      cases last with
      | true =>
        have hend : (settled.expired || r.isOff k.toMoment) = true := by
          simp only [Bool.or_eq_true, Countdown.expired, decide_eq_true_eq, hrem]
          exact hlast rfl
        simp only [hend, cond_true, Nat.le_refl]
      | false =>
        cases settled.expired || r.isOff k.toMoment
        · exact Nat.le_refl _
        · exact htop

/-- The countdown beside a round leaves fewer moves to its alert. -/
theorem stirs_beside {r : Raised} {t : Ticking} {current : Activity} (ha : c.signals.aborted = false)
    (hm : advanceBeside r t current c d = some m) :
    m.next.stirs (c.scene m.devices h) < (alertRound r t current).stirs (c.scene d h) := by
  obtain ⟨tm, htm, rfl⟩ := Option.map_eq_some_iff.1 hm
  rw [r.isDismissed_eq d c.now] at htm
  obtain ⟨hpos, hless⟩ := Ticking.stirs_advance (d := d) (h := h) ha htm
  rcases Ticking.advance_due htm with ⟨rfl, hcause⟩ | ⟨t', ht', hfloor, hdue, -⟩
  · have hlast : (current.holdsUp (c.scene d h) && decide (t.floor ≤ 0)) = true →
        t.countdown.due c.now ≤ 0 ∨ r.isOff (d.moment c.now) = true := by
      intro hl
      simp only [Bool.and_eq_true, decide_eq_true_eq] at hl
      rw [ha] at hcause
      refine (hcause.resolve_left (by simp)).imp_left fun hle => Int.not_lt.1 fun hgo => ?_
      have hlt := Countdown.lt_remaining_of_due (Int.le_refl 0) hgo
      omega
    dsimp only
    rw [(afterRound_due r t.countdown c (c.silence d) current.dropEvents).1]
    have hafter := stirs_afterRound (k := c.scene (c.silence d) h) rfl r hlast (c.silence d) current.dropEvents
    simp only [stirs, Circumstances.scene_toMoment, Circumstances.scene_toHearing] at hafter ⊢
    omega
  · have hlt := hless t' ht'
    cases tm <;> cases ht' <;>
      · simp only [stirs, hfloor, Circumstances.scene_toMoment] at hlt ⊢
        omega

theorem stirs_gap {r : Raised} {t : Ticking} (ha : c.signals.aborted = false)
    (hm : (alertGap r t).advance c d = some m) :
    m.next.stirs (c.scene m.devices h) < (alertGap r t).stirs (c.scene d h) := by
  obtain ⟨tm, htm, rfl⟩ := Option.map_eq_some_iff.1 hm
  rw [r.isDismissed_eq d c.now] at htm
  obtain ⟨hpos, hless⟩ := Ticking.stirs_advance (d := d) (h := h) ha htm
  rcases Ticking.advance_due htm with ⟨rfl, hcause⟩ | ⟨t', ht', hfloor, hdue, -⟩
  · rw [ha] at hcause
    have hcause := hcause.resolve_left (by simp)
    simp only [stirs, Circumstances.scene_toMoment, Circumstances.scene_toHearing, Devices.moment_now]
    by_cases hend : (t.countdown.expired || r.isOff (d.moment c.now)) = true
    · rw [hend, cond_true]
      omega
    · -- the floor has been reached, and it is not below zero
      rw [Bool.eq_false_iff.2 hend, cond_false]
      simp only [Bool.or_eq_true, not_or, Countdown.expired, decide_eq_true_eq, Bool.not_eq_true] at hend
      have hle : t.countdown.remaining ≤ t.floor := hcause.resolve_right (by simp [hend.2])
      have hfloor : t.isShort c.now = false := decide_eq_false fun hlt => by
        have hgo := Countdown.lt_remaining_of_due (by omega) hlt
        omega
      rw [hend.2, hfloor, Bool.or_false, cond_false]
      rw [hend.2] at hpos
      omega
  · have hlt := hless t' ht'
    have hshort : t.isShort c.now = true → t'.isShort c.now = true := by
      simp only [Ticking.isShort, hfloor, decide_eq_true_eq]
      exact fun hgo => Int.lt_of_lt_of_le hgo hdue
    have hrest : (bif r.isOff (d.moment c.now) || t'.isShort c.now then 0 else r.stirs h) ≤
        bif r.isOff (d.moment c.now) || t.isShort c.now then 0 else r.stirs h := by
      cases ht : t.isShort c.now with
      | true => simp [hshort ht]
      | false => cases r.isOff (d.moment c.now) <;> cases t'.isShort c.now <;> simp
    cases tm <;> cases ht' <;>
      · simp only [stirs, Circumstances.scene_toMoment, Circumstances.scene_toHearing, Devices.moment_now]
        omega

theorem stirs_alertTop (r : Raised) (countdown : Countdown) (ha : c.signals.aborted = false)
    (hh : h.IsTrue c.equipment) :
    (advanceAlertTop r countdown c d).next.stirs (c.scene (advanceAlertTop r countdown c d).devices h) <
        (alertTop r countdown).stirs (c.scene d h) ∨
      Opens h (alertTop r countdown) (advanceAlertTop r countdown c d).next := by
  have hpos := r.stirs_pos h
  by_cases hend : (countdown.expired || r.isOff (d.moment c.now)) = true
  · refine Or.inl ?_
    have hfinish : advanceAlertTop r countdown c d = r.finish c d := by
      rw [Bool.or_comm] at hend
      rw [advanceAlertTop, r.isDismissed_eq d c.now, Bool.or_assoc, hend, Bool.or_true, if_pos rfl]
    rw [hfinish]
    simp [Raised.finish, hend]
  · simp only [Bool.or_eq_true, not_or, Bool.not_eq_true] at hend
    have hmeasure : (alertTop r countdown).stirs (c.scene d h) = r.stirs h := by simp [hend]
    have hgoes : advanceAlertTop r countdown c d =
        if c.signals.paused then ⟨alertHeld r (countdown.suspend c.now), d, []⟩
        else ⟨alertRound r (.start countdown 0 r.reportAs) (r.round c), d, []⟩ := by
      rw [advanceAlertTop, r.isDismissed_eq d c.now, ha, hend.1, hend.2]
      rfl
    rw [hmeasure, hgoes]
    cases hp : c.signals.paused with
    | true => exact Or.inl (by simpa [hp, hend] using hpos)
    | false =>
      cases hpaced : r.isPaced h with
      | false => exact Or.inr (.top hpaced)
      | true =>
        refine Or.inl ?_
        have hrest := r.restStirs_of_isPaced h hpaced
        have hfull : r.stirs h = r.roundStirs h + 6 := by rw [Raised.stirs, hpaced]; rfl
        have hround : (r.round c).holdsUp (c.scene d h) = r.holdsUp h := holdsUp_round r hh.fallback
        simp only [Bool.false_eq_true, if_false, stirs, stirs_round, hround, Ticking.stirs_start, Ticking.floor_start,
          Circumstances.scene_toHearing, Int.max_self, Int.le_refl, decide_true, Bool.and_true]
        omega

theorem stirs_sound {url : String} {replays : Bool} {phase : SoundPhase} (ha : c.signals.aborted = false)
    (hm : (sound url replays phase).advance c d = some m) :
    m.next.stirs (c.scene m.devices h) < (sound url replays phase).stirs (c.scene d h) := by
  rcases advance_sound hm with ⟨rfl, rfl⟩ | ⟨rfl, rfl⟩ | ⟨rfl, rfl⟩ | ⟨call, how, rfl, -, rfl⟩
  · cases hp : c.signals.paused <;> simp [hp]
  · have hp : c.signals.paused = false := by simpa [advance, advanceSound, ha] using hm
    simp [hp]
  · simp [ha, beginSound]
  · dsimp only
    split
    · rename_i hagain
      have hp : c.signals.paused = true := by
        simp only [Bool.and_eq_true] at hagain
        exact hagain.1.2
      simp [hp]
    · exact Nat.two_pos

/-- An alert that is up has fewer moves before it than its announcement. -/
theorem stirs_announcing {id : StepId} {alert : Alert} {children : List Step} {countdown : Countdown} {phase : NoticePhase}
    (hm : (announcing id alert children countdown phase).advance c d = some m) :
    m.next.stirs (c.scene m.devices h) < (announcing id alert children countdown phase).stirs (c.scene d h) := by
  rcases advance_announcing hm with ⟨due, delay, fails, rfl, rfl⟩ | ⟨notice, hnext, -⟩
  · exact Nat.lt_succ_self _
  · -- the number of the notification has no part in the rounds of an alert
    have hsame : Raised.stirs ⟨id, alert, children, notice⟩ h = Raised.stirs ⟨id, alert, children, none⟩ h := rfl
    have hpos := Raised.stirs_pos ⟨id, alert, children, none⟩ h
    have hle : (alertTop ⟨id, alert, children, notice⟩ countdown).stirs (c.scene m.devices h) ≤
        Raised.stirs ⟨id, alert, children, none⟩ h := by
      simp only [stirs, Circumstances.scene_toMoment, Circumstances.scene_toHearing, hsame]
      cases countdown.expired || Raised.isOff ⟨id, alert, children, notice⟩ (m.devices.moment c.now)
      · exact Nat.le_refl _
      · exact hpos
    rw [hnext]
    refine Nat.lt_of_le_of_lt hle ?_
    cases phase <;> simp

theorem stirs_alertHeld {r : Raised} {countdown : Countdown} (ha : c.signals.aborted = false)
    (hm : (alertHeld r countdown).advance c d = some m) :
    m.next.stirs (c.scene m.devices h) < (alertHeld r countdown).stirs (c.scene d h) := by
  have hfree : (c.signals.paused && !r.isOff (d.moment c.now)) = false := by
    simp only [advance, r.isDismissed_eq d c.now, ha] at hm
    split at hm
    · rename_i hgo
      cases hp : c.signals.paused <;> simp_all
    · cases hm
  rw [advance_alertHeld hm]
  simp [hfree]

/-- Each move of an activity leaves fewer of them at that instant, or begins a round that nothing paces. -/
theorem stirs_advance {a : Activity} (ha : c.signals.aborted = false)
    (hshown : ∀ n ∈ d.board.dismissed, n < d.board.shown) (hn : d.channel.Numbered) (hh : h.IsTrue c.equipment)
    (hm : a.advance c d = some m) :
    m.next.stirs (c.scene m.devices h) < a.stirs (c.scene d h) ∨ Opens h a m.next := by
  induction a generalizing m with
  | done => cases hm
  | ready steps =>
    refine Or.inl ?_
    cases steps with
    | nil =>
      cases hm
      exact Nat.one_pos
    | cons s rest =>
      rw [advance, if_neg (by simp [ha])] at hm
      split at hm <;> cases hm
      · rename_i hp
        simp [hp, Step.stirsOf]
      · simp [activate, Step.stirsOf]
  | held steps =>
    refine Or.inl ?_
    cases steps with
    | nil =>
      cases hm
      simp [Step.stirsOf]
    | cons s rest =>
      rw [advance, if_neg (by simp [ha])] at hm
      split at hm <;> cases hm
      rename_i hp
      simp [hp, activate, Step.stirsOf]
  | within current rest ih =>
    rcases advance_within hm with ⟨-, rfl⟩ | ⟨m', hm', rfl⟩
    · refine Or.inl ?_
      simp only [stirs, Circumstances.scene_toHearing]
      omega
    · refine (ih hm').imp (fun hlt => ?_) fun ho => .within rest ho
      simp only [stirs, Circumstances.scene_toHearing]
      omega
  | entering s =>
    cases hm
    exact Or.inl (stirs_beginStep _ s)
  | counting id t =>
    refine Or.inl ?_
    obtain ⟨tm, htm, rfl⟩ := Option.map_eq_some_iff.1 hm
    obtain ⟨-, hless⟩ := Ticking.stirs_advance (d := d) (h := h) ha htm
    cases tm with
    | ended countdown => exact Nat.succ_pos _
    | goes t' => exact Nat.succ_lt_succ (hless t' rfl)
    | ticked t' => exact Nat.succ_lt_succ (hless t' rfl)
  | sound url replays phase => exact Or.inl (stirs_sound ha hm)
  | notifying n phase grace =>
    refine Or.inl ?_
    rcases advance_notifying hm with ⟨due, delay, fails, rfl, rfl⟩ | ⟨hnext, -⟩
    · exact Nat.one_lt_two
    · rw [hnext]
      cases phase
      · exact Nat.two_pos
      · exact Nat.one_pos
  | announcing id alert children countdown phase => exact Or.inl (stirs_announcing hm)
  | alertTop r countdown =>
    cases hm
    exact stirs_alertTop r countdown ha hh
  | alertHeld r countdown => exact Or.inl (stirs_alertHeld ha hm)
  | alertRound r t current ih =>
    rcases advance_alertRound hm with ⟨hd, rfl⟩ | ⟨m', hm', rfl⟩ | hm
    · refine Or.inl ?_
      rw [(afterRound_due r t.countdown c d []).1]
      have hlast : (current.holdsUp (c.scene d h) && decide (t.floor ≤ 0)) = true →
          t.countdown.due c.now ≤ 0 ∨ r.isOff (d.moment c.now) = true := by
        rw [not_holdsUp_of_isDone hd]
        intro hl
        cases hl
      have hafter := stirs_afterRound (k := c.scene d h) rfl r hlast d []
      simp only [stirs, Circumstances.scene_toMoment, Circumstances.scene_toHearing] at hafter ⊢
      omega
    · refine (ih hm').imp (fun hlt => ?_) fun ho => .round r t ho
      have hmono : (current.holdsUp (c.scene d h) && decide (t.floor ≤ 0)) = true →
          (m'.next.holdsUp (c.scene m'.devices h) && decide (t.floor ≤ 0)) = true := by
        simp only [Bool.and_eq_true]
        exact fun hl => hl.imp_left fun hcur => holdsUp_advance ha hshown hn hh hcur hm'
      have hrest := r.restStirs_mono h hmono
      have hticks : t.stirs (c.scene m'.devices h) (r.isOff (d.moment c.now)) =
          t.stirs (c.scene d h) (r.isOff (d.moment c.now)) := by
        simp only [Ticking.stirs, Circumstances.scene_toMoment, moment_advance hm', Circumstances.scene_paused]
      simp only [stirs, Circumstances.scene_toMoment, Circumstances.scene_toHearing, moment_advance hm']
      omega
    · exact Or.inl (stirs_beside ha hm)
  | alertGap r t => exact Or.inl (stirs_gap ha hm)
  | loopTop count children passes =>
    refine Or.inl ?_
    cases hm
    rw [loopTop_exceeds children ha]
    cases hmore : count.exceeds passes with
    | true =>
      simp only [if_true, stirs, RepeatCount.stirs, hmore, cond_true, Circumstances.scene_toHearing]
      omega
    | false => exact Nat.succ_pos _
  | loopPass count children passes current ih =>
    rcases advance_loopPass hm with ⟨-, rfl⟩ | ⟨m', hm', rfl⟩
    · refine Or.inl ?_
      simp only [stirs, Circumstances.scene_toHearing]
      omega
    · refine (ih hm').imp (fun hlt => ?_) fun ho => .pass count children passes ho
      simp only [stirs, Circumstances.scene_toHearing]
      omega
  | loopYield count children passes => cases hm
  | parked =>
    simp only [advance, ha] at hm
    cases hm

/-- So does its turn when it let others go first, unless that is an endless loop. -/
theorem stirs_wake {k : Scene} {a : Activity} (hloops : a.EachBlock fun frame _ => frame ≠ .loop .infinite)
    (hy : a.hasYielded = true) : a.wake.stirs k < a.stirs k := by
  induction a with
  | within current rest ih =>
    have hlt := ih hloops.1 hy
    simp only [wake, stirs]
    omega
  | alertRound r t current ih =>
    have hlt := ih hloops.2 hy
    simp only [wake, stirs, holdsUp, lasts_wake, sounds_wake]
    omega
  | loopPass count children passes current ih =>
    have hlt := ih hloops.2 hy
    simp only [wake, stirs]
    omega
  | loopYield count children passes =>
    have hcount : count ≠ .infinite := fun he => hloops.1 (congrArg Frame.loop he)
    exact RepeatCount.stirs_lt hcount _ passes
  | _ => cases hy

/-! ### Runs that are paced -/

end Activity

/-- Whether a block is no alert, or one whose rounds are paced. -/
def Frame.isPaced (h : Hearing) (children : List Step) : Frame → Bool
  | notifyUntil alert => Raised.isPaced ⟨"", alert, children, none⟩ h
  | loop _ => true

/-- A run in which each alert is paced begins no round that nothing paces. -/
theorem Activity.not_opens_of_isPaced {h : Hearing} {a b : Activity}
    (ha : a.EachBlock fun frame children => frame.isPaced h children = true) : ¬ Opens h a b := by
  intro ho
  induction ho with
  | @top r countdown t current hr =>
    have hpaced : r.isPaced h = true := ha.1
    rw [hr] at hpaced
    cases hpaced
  | within rest _ ih => exact ih ha.1
  | round r t _ ih => exact ih ha.2
  | pass count children passes _ ih => exact ih ha.2

end StepTimer
