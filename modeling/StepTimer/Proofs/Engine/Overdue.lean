/-
What ends at a moment by itself. A sound under way is given up by its own run only when it is over or
was cut, or when an alert around it ends; and at a moment only those alerts end that have run out or
were dismissed by then without having seen it (`overdue`). An alert that goes up now is not one of them,
so at each moment there are only so many times that a run gives up a sound which could go on.
-/
import StepTimer.Proofs.Engine.Calls
import StepTimer.Proofs.Engine.Lasting

namespace StepTimer

/-- Whether a sound goes on for some time unless it is cut. -/
def Performance.takesTime : Performance → Bool
  | lasts ms => 0 < ms
  | endless => true
  | fails ms => 0 < ms

theorem Call.isOver_start {player : Player} {n : Nat} {url : String} (h : (player n url).takesTime = true)
    (now : Instant) : (Call.start player n url now).isOver now = false := by
  unfold Call.start
  cases hp : player n url with
  | lasts ms | fails ms =>
    rw [hp] at h
    have hpos : 0 < ms := of_decide_eq_true h
    have hlt : now.nanos < (now.plusMillis ms).nanos := Nat.lt_add_of_pos_right (Nat.mul_pos hpos (by decide))
    exact decide_eq_false (Nat.not_le.2 hlt)
  | endless => rfl

/-- A call that has an end is over or was cut. -/
theorem Call.isOver_or_isCut {call : Call} {coin : Bool} {ch : Channel} {now : Instant} {how : PlaybackEnd}
    (h : call.end? coin ch now = some how) : call.isOver now = true ∨ ch.isCut call.number = true := by
  unfold end? at h
  cases ho : call.isOver now with
  | true => exact Or.inl rfl
  | false =>
    rw [ho] at h
    cases hc : ch.isCut call.number with
    | true => exact Or.inr rfl
    | false =>
      rw [hc] at h
      cases h

/-- Whether a call goes on: it is not over and was not cut. -/
def Call.goesOn (call : Call) (ch : Channel) (now : Instant) : Bool := !call.isOver now && !ch.isCut call.number

/-- One for a run that is in no call that goes on. -/
def Channel.unheard (ch : Channel) (now : Instant) : Option Call → Nat
  | none => 1
  | some call => if call.goesOn ch now then 0 else 1

namespace CallMove

variable {c : Circumstances} {guarded : Bool} {k k' : Option Call} {ch ch' : Channel} {now : Instant}

theorem unheard_le_one (ch : Channel) (now : Instant) (k : Option Call) : ch.unheard now k ≤ 1 := by
  unfold Channel.unheard
  split
  · exact Nat.le_refl 1
  · split <;> decide

/-- A run that is in no call after a move pays for it if its call could have gone on. -/
theorem unheard_of_drops {n n' : Nat} (hle : n' ≤ n) (hdrops : ∀ call, k = some call →
    n' < n ∨ call.isOver now = true ∨ ch.isCut call.number = true) : n' + 1 ≤ n + ch.unheard now k := by
  cases k with
  | none => exact Nat.add_le_add_right hle 1
  | some call =>
    by_cases hlt : n' < n
    · exact Nat.le_add_right_of_le hlt
    · have hends := (hdrops call rfl).resolve_left hlt
      have hgo : call.goesOn ch now = false := by
        rcases hends with h | h <;> simp [Call.goesOn, h]
      simp only [Channel.unheard, hgo]
      exact Nat.add_le_add_right hle 1

/-- A run that starts a sound was in no call that could go on, or paid for giving it up. -/
theorem unheard_self (h : CallMove c guarded k ch k' ch') (hn : ch.Numbered) {n n' : Nat} (hle : n' ≤ n)
    (hdrops : ∀ call, k = some call → k' = none →
      n' < n ∨ call.isOver now = true ∨ ch.isCut call.number = true)
    (hbegins : k = none → ∀ call, k' = some call → call.isOver now = false) :
    n' + ch'.unheard now k' + ch'.nextCall ≤ n + ch.unheard now k + ch.nextCall := by
  cases h with
  | keeps => omega
  | silences =>
    rw [ch.nextCall_stopOwnedBy]
    exact Nat.add_le_add_right (unheard_of_drops hle fun call hk => hdrops call hk rfl) _
  | takes _ call url hnum =>
    have hcut : (ch.install c.owner url).isCut call.number = false := hnum ▸ hn.isCut_install c.owner url
    have hgo : call.goesOn (ch.install c.owner url) now = true := by simp [Call.goesOn, hcut, hbegins rfl call rfl]
    have hcalls : (ch.install c.owner url).nextCall = ch.nextCall + 1 := rfl
    simp only [Channel.unheard, hgo, if_true]
    omega
  | ends call =>
    rw [ch.nextCall_release]
    exact Nat.add_le_add_right (unheard_of_drops hle fun call hk => hdrops call hk rfl) _

/-- A call that goes on is cut by another run only when that run starts a sound. -/
theorem unheard_other (h : CallMove c guarded k ch k' ch') (hn : ch.Numbered)
    (hk : ∀ call, k = some call → ch.Holds c.owner call.number) {other : RunId} (hne : other ≠ c.owner)
    {k₀ : Option Call} (hk₀ : ∀ call, k₀ = some call → ch.Holds other call.number) :
    ch'.unheard now k₀ + ch.nextCall ≤ ch.unheard now k₀ + ch'.nextCall := by
  have hcalls : ch.nextCall ≤ ch'.nextCall := by
    rcases h.nextCall_cases with he | ⟨-, he⟩ <;> omega
  have hle := unheard_le_one ch' now k₀
  cases k₀ with
  | none => exact Nat.add_le_add_left hcalls 1
  | some call =>
    cases hgo : call.goesOn ch now with
    | false =>
      simp only [Channel.unheard, hgo] at hle ⊢
      exact Nat.add_le_add hle hcalls
    | true =>
      have hcut : ch.isCut call.number = false := by
        simp only [Call.goesOn, Bool.and_eq_true, Bool.not_eq_true'] at hgo
        exact hgo.2
      obtain ⟨url, hcur⟩ := (hk₀ call rfl).resolve_left (by simp [hcut])
      rcases h.eq_or_takes hn hk hcur hne with rfl | ⟨-, call', url', -, rfl⟩
      · exact Nat.le_refl _
      · simp only [Channel.install] at hle ⊢
        omega

end CallMove

/-- Whether a countdown has run out, but that has not been seen. -/
def Countdown.isOverdue (c : Countdown) (now : Instant) : Bool := !c.expired && decide (c.due now ≤ 0)

namespace Countdown

variable {c c' : Countdown} {now : Instant}

theorem not_isOverdue_of_remaining (h : c.remaining = c.due now) : c.isOverdue now = false := by
  unfold isOverdue expired
  rw [h]
  simp

/-- A countdown is not overdue as long as nothing is taken from it, nor once it was seen to be over. -/
theorem isOverdue_le (hdue : c.due now ≤ c'.due now) (hexpired : c.expired = true → c'.expired = true) :
    (c'.isOverdue now).toNat ≤ (c.isOverdue now).toNat := by
  cases h : c'.isOverdue now with
  | false => exact Nat.zero_le _
  | true =>
    simp only [isOverdue, Bool.and_eq_true, Bool.not_eq_true', decide_eq_true_eq] at h
    have hgo : c.expired = false := Bool.eq_false_iff.2 fun hx => by
      rw [hexpired hx] at h
      cases h.1
    simp [isOverdue, hgo, Int.le_trans hdue h.2]

end Countdown

namespace Activity

variable {c : Circumstances} {d : Devices} {m : Move} {k : Moment}

/-- The alerts around an activity that are over at a moment, without having seen it. -/
def overdue (k : Moment) : Activity → Nat
  | within current _ => current.overdue k
  | announcing _ _ _ countdown _ => (countdown.isOverdue k.now).toNat
  | alertTop _ countdown => (countdown.isOverdue k.now).toNat
  | alertHeld _ countdown => (countdown.isOverdue k.now).toNat
  | alertRound r t current => (!(t.lasts k.now && !r.isOff k)).toNat + current.overdue k
  | alertGap _ t => (t.countdown.isOverdue k.now).toNat
  | loopPass _ _ _ current => current.overdue k
  | _ => 0

/-- What a move makes of the call of a run: it goes on, unless it is over or cut or an alert ends. -/
structure GivesUp (k : Moment) (c : Circumstances) (d : Devices) (a : Activity) (m : Move) : Prop where
  overdue : m.next.overdue k ≤ a.overdue k
  drops : ∀ call, a.call? = some call → m.next.call? = none →
    m.next.overdue k < a.overdue k ∨ call.isOver c.now = true ∨ d.channel.isCut call.number = true
  begins : a.call? = none → ∀ call, m.next.call? = some call → call.isOver c.now = false

/-- A move before and after which there is no sound under way. -/
theorem GivesUp.of_none {a : Activity} (h : m.next.overdue k ≤ a.overdue k) (ha : a.call? = none)
    (hm : m.next.call? = none) : GivesUp k c d a m := by
  refine ⟨h, fun call hcall => ?_, fun _ call hcall => ?_⟩
  · rw [ha] at hcall
    cases hcall
  · rw [hm] at hcall
    cases hcall

theorem overdue_wake (a : Activity) : a.wake.overdue k = a.overdue k := by
  induction a with
  | within current rest ih => exact ih
  | alertRound r t current ih => exact congrArg (_ + ·) ih
  | loopPass count children passes current ih => exact ih
  | _ => rfl

theorem overdue_of_isDone {a : Activity} (h : a.isDone = true) : a.overdue k = 0 := by
  cases a with
  | done => rfl
  | _ => cases h

theorem overdue_beginStep (s : Step) : (beginStep c d s).next.overdue (d.moment c.now) = 0 := by
  cases s with
  | leaf id action => cases action <;> rfl
  | block id frame children =>
    cases frame with
    | notifyUntil alert =>
      have hnot : (Countdown.start alert.timeout c.now).isOverdue c.now = false :=
        Countdown.not_isOverdue_of_remaining (Countdown.due_start alert.timeout c.now).symm
      exact congrArg Bool.toNat hnot
    | loop count => rcases beginLoop_cases id count children c d with h | ⟨-, ⟨-, h⟩ | ⟨-, h⟩⟩ <;> rw [h] <;> rfl

theorem overdue_round (r : Raised) (c : Circumstances) : (r.round c).overdue k = 0 ∧ (r.round c).call? = none := by
  unfold Raised.round
  split <;> exact ⟨rfl, rfl⟩

/-- After a round the time is taken off, and what has run out is seen. -/
theorem overdue_afterRound (r : Raised) (countdown : Countdown) (d' : Devices) (events : List Event) :
    (r.afterRound countdown c d' events).next.overdue (d.moment c.now) = 0 ∧
      (r.afterRound countdown c d' events).next.call? = none := by
  obtain ⟨-, settled, hdue, hrem, hnext⟩ := afterRound_due r countdown c d' events
  have hnot : settled.isOverdue c.now = false := Countdown.not_isOverdue_of_remaining (hrem.trans hdue.symm)
  rcases hnext with ⟨-, -, floor, -, hnext⟩ | ⟨-, hnext⟩ <;> rw [hnext] <;>
    exact ⟨congrArg Bool.toNat hnot, rfl⟩

/-- The countdown beside a round gives the round up only when the alert was overdue. -/
theorem givesUp_beside {r : Raised} {t : Ticking} {current : Activity} (ha : c.signals.aborted = false)
    (h : advanceBeside r t current c d = some m) : GivesUp (d.moment c.now) c d (alertRound r t current) m := by
  rcases beside_due h with ⟨rfl, hcause⟩ | ⟨t', hnext, -, hfloor, hdue, -⟩
  · -- the alert that ends here is one of those that are overdue
    obtain ⟨hzero, hnone⟩ := overdue_afterRound (c := c) (d := d) r t.countdown (c.silence d) current.dropEvents
    have hover : (t.lasts c.now && !r.isOff (d.moment c.now)) = false := by
      refine Bool.eq_false_iff.2 fun hl => ?_
      rw [Bool.and_eq_true, Bool.not_eq_true'] at hl
      rw [ha, hl.2] at hcause
      simp [Ticking.not_ended_of_lasts hl.1] at hcause
    have hlt : 0 < (alertRound r t current).overdue (d.moment c.now) := by
      simp only [overdue, d.moment_now, hover]
      exact Nat.lt_add_right _ Nat.one_pos
    exact ⟨by omega, fun call _ _ => Or.inl (by omega), fun _ call hcall => by rw [hnone] at hcall; cases hcall⟩
  · have hle : (alertRound r t' current).overdue (d.moment c.now) ≤
        (alertRound r t current).overdue (d.moment c.now) := by
      refine Nat.add_le_add_right ?_ _
      cases hl : t.lasts c.now with
      | true => simp [Ticking.lasts_of_due hl hfloor hdue, hl]
      | false =>
        simp only [d.moment_now, hl]
        exact Bool.toNat_le _
    refine ⟨by rw [hnext]; exact hle, fun call hcall hnone => ?_, fun hnone call hcall => ?_⟩
    · rw [hnext] at hnone
      exact absurd (hcall.symm.trans hnone) (by simp)
    · rw [hnext] at hcall
      exact absurd (hcall.symm.trans hnone) (by simp)

/-- A run that is not aborted gives up a sound which could go on only when an alert ends that was overdue. -/
theorem givesUp_advance {a : Activity} (ha : c.signals.aborted = false)
    (hplayer : ∀ n url, (c.equipment.player n url).takesTime = true) (h : a.advance c d = some m) :
    GivesUp (d.moment c.now) c d a m := by
  induction a generalizing m with
  | done => cases h
  | ready steps =>
    rcases advance_ready h with rfl | ⟨-, rfl | ⟨s, rest, rfl, rfl⟩⟩ <;> exact .of_none (Nat.le_refl _) rfl rfl
  | held steps => rcases advance_held h with rfl | ⟨-, s, rest, rfl, rfl⟩ <;> exact .of_none (Nat.le_refl _) rfl rfl
  | within current rest ih =>
    rcases advance_within h with ⟨hd, rfl⟩ | ⟨m', hm', rfl⟩
    · exact .of_none (Nat.zero_le _) (show current.call? = none from call?_of_isDone hd) rfl
    · exact ⟨(ih hm').overdue, (ih hm').drops, (ih hm').begins⟩
  | entering s =>
    cases h
    exact .of_none (Nat.le_of_eq (overdue_beginStep s)) rfl (beginStep_call s).1
  | counting id t =>
    obtain ⟨-, ⟨hnext, -⟩ | ⟨t', hnext, -⟩⟩ := counting_due h <;>
      exact .of_none (by rw [hnext]; exact Nat.le_refl _) rfl (by rw [hnext]; rfl)
  | sound url replays phase =>
    rcases advance_sound h with ⟨rfl, rfl⟩ | ⟨rfl, rfl⟩ | ⟨rfl, rfl⟩ | ⟨call, how, rfl, hhow, rfl⟩
    · exact .of_none (Nat.le_refl _) rfl (by cases c.signals.paused <;> rfl)
    · exact .of_none (Nat.le_refl _) rfl rfl
    · rw [if_neg (by simp [ha])]
      refine ⟨Nat.le_refl _, fun call hcall => (by cases hcall), fun _ call hcall => ?_⟩
      cases hcall
      exact Call.isOver_start (hplayer ..) c.now
    · refine ⟨?_, fun call' hcall _ => Or.inr ?_, fun hnone => by cases hnone⟩
      · dsimp only
        split <;> exact Nat.le_refl _
      · cases hcall
        exact Call.isOver_or_isCut hhow
  | notifying n phase grace =>
    rcases advance_notifying h with ⟨due, delay, fails, -, rfl⟩ | ⟨hnext, -⟩
    · exact .of_none (Nat.le_refl _) rfl rfl
    · exact .of_none (by rw [hnext]; exact Nat.le_refl _) rfl (by rw [hnext]; rfl)
  | announcing id alert children countdown phase =>
    rcases advance_announcing h with ⟨due, delay, fails, -, rfl⟩ | ⟨notice, hnext, -⟩
    · exact .of_none (Nat.le_refl _) rfl rfl
    · exact .of_none (by rw [hnext]; exact Nat.le_refl _) rfl (by rw [hnext]; rfl)
  | alertTop r countdown =>
    cases h
    rcases alertTop_due r countdown c d with ⟨h, -⟩ | ⟨⟨-, hoff, hgo⟩, h | h⟩ <;> rw [h]
    · exact .of_none (Nat.zero_le _) rfl rfl
    · have hnot : (countdown.suspend c.now).isOverdue c.now = false := Countdown.not_isOverdue_of_remaining rfl
      refine .of_none ?_ rfl rfl
      simp only [overdue, d.moment_now, hnot]
      exact Nat.zero_le _
    · obtain ⟨hzero, hnone⟩ := overdue_round (k := d.moment c.now) r c
      refine .of_none ?_ rfl hnone
      simp only [overdue, hzero, hoff, d.moment_now, Countdown.isOverdue, hgo, Ticking.lasts, Ticking.start]
      by_cases hdue : 0 < countdown.due c.now
      · simp [hdue]
      · simp [hdue, Int.not_lt.1 hdue]
  | alertHeld r countdown =>
    rw [advance_alertHeld h]
    exact .of_none (Nat.le_refl _) rfl rfl
  | alertRound r t current ih =>
    rcases advance_alertRound h with ⟨hd, rfl⟩ | ⟨m', hm', rfl⟩ | h
    · obtain ⟨hzero, hnone⟩ := overdue_afterRound (c := c) (d := d) r t.countdown d []
      exact .of_none (hzero ▸ Nat.zero_le _) (show current.call? = none from call?_of_isDone hd) hnone
    · refine ⟨Nat.add_le_add_left (ih hm').overdue _, fun call hcall hnone => ?_, (ih hm').begins⟩
      exact ((ih hm').drops call hcall hnone).imp_left fun hlt => Nat.add_lt_add_left hlt _
    · exact givesUp_beside ha h
  | alertGap r t =>
    obtain ⟨-, ⟨hnext, -⟩ | ⟨t', hnext, -, hdue, hexpired, -⟩⟩ := gap_due h
    · exact .of_none (by rw [hnext]; exact Nat.le_refl _) rfl (by rw [hnext]; rfl)
    · refine .of_none ?_ rfl (by rw [hnext]; rfl)
      rw [hnext]
      exact Countdown.isOverdue_le hdue hexpired
  | loopTop count children passes =>
    cases h
    rcases loopTop_cases count children passes c d with h | ⟨-, h⟩ <;> rw [h] <;> exact .of_none (Nat.le_refl _) rfl rfl
  | loopPass count children passes current ih =>
    rcases advance_loopPass h with ⟨hd, rfl⟩ | ⟨m', hm', rfl⟩
    · exact .of_none (Nat.zero_le _) (show current.call? = none from call?_of_isDone hd) rfl
    · exact ⟨(ih hm').overdue, (ih hm').drops, (ih hm').begins⟩
  | loopYield count children passes => cases h
  | parked =>
    rw [advance_parked h]
    exact .of_none (Nat.le_refl _) rfl rfl

/-! ### The stake -/

/-- The sounds that a run may start by itself at a moment, as long as its sounds are not cut off. -/
def stake (k : Moment) (ch : Channel) (a : Activity) : Nat := a.overdue k + ch.unheard k.now a.call?

theorem stake_wake (ch : Channel) (a : Activity) : a.wake.stake k ch = a.stake k ch := by
  rw [stake, overdue_wake, call?_wake, stake]

/-- With every sound that a run starts, one less is left of its stake. -/
theorem stake_advance {a : Activity} (ha : c.signals.aborted = false)
    (hplayer : ∀ n url, (c.equipment.player n url).takesTime = true) (hn : d.channel.Numbered)
    (h : a.advance c d = some m) :
    m.next.stake (d.moment c.now) m.devices.channel + m.devices.channel.nextCall ≤
      a.stake (d.moment c.now) d.channel + d.channel.nextCall := by
  have hgives := givesUp_advance ha hplayer h
  exact (advance_call h).unheard_self hn hgives.overdue hgives.drops hgives.begins

end Activity

end StepTimer
