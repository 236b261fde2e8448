/-
How a run returns that nothing disturbs. It is never stuck, and each move of it and each millisecond
that passes bring it nearer to its end (`Activity.toil`), so that it returns whatever the order of its
moves is; and it returns at the time that its costs come to, with every step and every sound started
in the order of the unrolled list.
-/
import StepTimer.Proofs.Solo.Reckoning

namespace StepTimer

/-! ## How far a run is from its end -/

namespace Step

mutual

/-- A bound on the moves of a step that has just become active. -/
def toil : Step → Nat
  | leaf _ _ => 2 * countMax.toNat + 8
  | block _ frame children => frame.passes * (toilAll children + 5) + 1

/-- A bound on the moves of a list of steps. -/
def toilAll : List Step → Nat
  | [] => 1
  | s :: rest => toil s + toilAll rest + 3

end

end Step

/-- A bound on the moves of a countdown, from what remains of it: every tick takes a millisecond off. -/
def Ticking.toil (t : Ticking) : Nat :=
  match t.phase with
  | .top => 2 * t.countdown.remaining.toNat + 1
  | .held => 2 * t.countdown.remaining.toNat + 2
  | .asleep _ => 2 * t.countdown.remaining.toNat

theorem Ticking.toil_advance {now : Instant} {signals : Signals} {t t' : Ticking} {m : TickMove} (h : t.InOrder now)
    (ha : signals.aborted = false) (hp : signals.paused = false) (hm : t.advance now signals false = some m)
    (ht : m.ticking? = some t') : t'.toil < t.toil := by
  unfold Ticking.advance at hm
  split at hm <;> rename_i hphase
  · split at hm
    · cases hm; cases ht
    · simp only [hp, Bool.false_eq_true, if_false] at hm
      cases hm
      cases ht
      have hrem := (h.isAt hphase).resume.2
      simp only [toil, hphase, hrem]
      omega
  · split at hm <;> cases hm
    cases ht
    simp only [toil, hphase, Countdown.anchorAt]
    omega
  · rename_i alarm
    split at hm
    · rename_i hdue
      cases hm
      cases ht
      simp only [hp, ha, Bool.or_false, decide_eq_true_eq] at hdue
      have hplaced := h.placed
      rw [IsPlaced, hphase] at hplaced
      obtain ⟨start, j, k, hanchor, rfl, rfl, hjk, hpos, hk⟩ := hplaced
      -- the whole tick has passed, and it is at least a millisecond
      have hkj : k ≤ j := (start.plusMillis_le_iff k j).1 hdue
      obtain ⟨hat, hleft, -⟩ := h.isBehind.settle
      rw [hat.left_eq, Countdown.left_plusMillis hanchor] at hleft
      have hfloor := h.floor
      simp only [toil, hphase, hleft]
      omega
    · cases hm

namespace Activity

/-- A bound on the moves that a run has before it. -/
@[simp] def toil : Activity → Nat
  | ready steps => Step.toilAll steps
  | held steps => Step.toilAll steps
  | within current rest => current.toil + Step.toilAll rest + 1
  | entering s => s.toil + 1
  | counting _ t => t.toil
  | sound _ _ (.playing _) => 2
  | sound _ _ .begin => 3
  | sound _ _ _ => 4
  | notifying _ (.asking _ _) _ => 3
  | notifying _ (.presenting _ _) _ => 2
  | loopTop count children passes => (count.passes - passes) * (Step.toilAll children + 5) + 1
  | loopPass count children passes current =>
    current.toil + (count.passes - (passes + 1)) * (Step.toilAll children + 5) + 3
  | loopYield count children passes => (count.passes - passes) * (Step.toilAll children + 5) + 2
  | _ => 0

variable {fallback : String} {ok : Action → Prop} {c : Circumstances} {d : Devices} {m : Move}

theorem toil_beginStep {s : Step} (h : s.Unrolls ok) : (beginStep c d s).next.toil < (entering s).toil := by
  have hwait (id : StepId) (total : UInt64) (action : Action) :
      (beginWait id total c d).next.toil < (entering (.leaf id action)).toil := by
    have hle := (Countdown.isAt_start total c.now).le
    simp only [beginWait, toil, Ticking.toil, Ticking.start, Step.toil]
    omega
  cases s with
  | leaf id action =>
    cases action with
    | wait amount unit => exact hwait id _ _
    | waitUntil time half => exact hwait id _ _
    | _ => simp [beginStep, beginAction, Circumstances.ask, Step.toil]
  | block id frame children =>
    cases frame with
    | notifyUntil alert => cases h
    | loop count =>
      obtain ⟨-, -, hb | ⟨-, hb⟩⟩ := beginLoop_of_unrolls h c d
      · simp [hb, Step.toil, Frame.passes]
      · rw [hb]; exact Nat.succ_pos _

/-- A move of an action brings it nearer to its end. -/
theorem toil_acts {a : Activity} (hacts : Acts fallback ok a) (hon : a.IsTimely c.now d.channel)
    (ha : c.signals.aborted = false) (hp : c.signals.paused = false) (h : a.advance c d = some m) :
    m.next.toil < a.toil := by
  cases hacts with
  | entering hs => cases h; exact toil_beginStep hs
  | counting id t =>
    obtain ⟨tm, htm, rfl⟩ := Option.map_eq_some_iff.1 h
    cases tm with
    | goes t' => exact Ticking.toil_advance hon.1 ha hp htm rfl
    | ticked t' => exact Ticking.toil_advance hon.1 ha hp htm rfl
    | ended cd =>
      -- a countdown ends where it decides what to do
      have hphase : t.phase = .top := by
        unfold Ticking.advance at htm
        split at htm
        · assumption
        · split at htm <;> cases htm
        · split at htm <;> cases htm
      simp [Ticking.toil, hphase]
  | sound hspec phase =>
    rcases advance_sound h with ⟨rfl, rfl⟩ | ⟨rfl, rfl⟩ | ⟨rfl, rfl⟩ | ⟨call, how, rfl, -, rfl⟩
    · simp [hp]
    · simp
    · simp [ha, beginSound]
    · simp [hp]
  | notifying hn n phase grace =>
    rcases advance_notifying h with ⟨due, delay, fails, rfl, rfl⟩ | ⟨hnext, -⟩
    · simp
    · rw [hnext]
      cases phase <;> simp

theorem toil_activate (s : Step) (rest : List Step) : (activate d s rest).next.toil < Step.toilAll (s :: rest) := by
  simp only [activate, toil, Step.toilAll]
  omega

theorem toilAll_pos (steps : List Step) : 0 < Step.toilAll steps := by
  cases steps <;> simp [Step.toilAll]

/-- Every move brings a run nearer to its end that is neither paused nor aborted. -/
theorem toil_advance {a : Activity} (hu : a.Unrolls fallback ok) (hon : a.core.IsTimely c.now d.channel)
    (ha : c.signals.aborted = false) (hp : c.signals.paused = false) (h : a.advance c d = some m) :
    m.next.toil < a.toil := by
  induction a generalizing m with
  | done => cases h
  | ready steps =>
    rcases advance_ready_cases ha h with ⟨rfl, rfl⟩ | rfl | ⟨s, rest, rfl, rfl⟩
    · exact toilAll_pos []
    · cases steps with
      | nil => cases h
      | cons s rest => simp [advance, ha, hp, activate] at h
    · exact toil_activate s rest
  | held steps =>
    rcases advance_held_cases ha h with ⟨rfl, rfl⟩ | ⟨s, rest, rfl, rfl⟩
    · exact toilAll_pos []
    · exact toil_activate s rest
  | within current rest ih =>
    rcases advance_within h with ⟨-, rfl⟩ | ⟨m', hm', rfl⟩
    · simp only [toil]; omega
    · have hlt := ih hu.1 hon hm'
      simp only [toil]
      omega
  | loopTop count children passes =>
    cases h
    cases count with
    | infinite => exact absurd rfl hu.1
    | times n =>
      by_cases hn : n.toNat ≤ passes
      · simp [advanceLoopTop, hn]
      · have hleft : n.toNat - passes = (n.toNat - (passes + 1)) + 1 := by omega
        simp only [advanceLoopTop, hn, ha, decide_false, Bool.or_false, Bool.false_eq_true, if_false, toil,
          RepeatCount.passes]
        rw [hleft, Nat.succ_mul]
        omega
  | loopPass count children passes current ih =>
    rcases advance_loopPass h with ⟨-, rfl⟩ | ⟨m', hm', rfl⟩
    · simp only [toil]; omega
    · have hlt := ih hu.2.2 hon hm'
      simp only [toil]
      omega
  | loopYield count children passes => cases h
  | entering s => exact toil_acts (acts_core hu rfl) hon ha hp h
  | counting id t => exact toil_acts (acts_core hu rfl) hon ha hp h
  | sound url replays phase => exact toil_acts (acts_core hu rfl) hon ha hp h
  | notifying n phase grace => exact toil_acts (acts_core hu rfl) hon ha hp h
  | _ => cases hu

/-- So does its turn when it let others go first. -/
theorem toil_wake {a : Activity} (hu : a.Unrolls fallback ok) (hy : a.hasYielded = true) : a.wake.toil < a.toil := by
  induction a with
  | within current rest ih =>
    have hlt := ih hu.1 hy
    simp only [wake, toil]
    omega
  | loopPass count children passes current ih =>
    have hlt := ih hu.2.2 hy
    simp only [wake, toil]
    omega
  | loopYield count children passes => simp [wake]
  | alertRound r t current ih => cases hu
  | _ => cases hy

/-! ## The reckoning of a whole run -/

/-- The meter at the end of a run. -/
def tally (e : Equipment) (m : Meter) (a : Activity) : Meter := (a.core.settled e m).final e a.ahead

theorem tally_wake (e : Equipment) (m : Meter) (a : Activity) : a.wake.tally e m = a.tally e m := by
  have hsettled : a.core.wake.settled e m = a.core.settled e m := by cases a.core <;> rfl
  rw [tally, tally, ahead_wake, core_wake, hsettled]

theorem isTimely_wake {a : Activity} {now : Instant} {ch : Channel} (h : a.core.IsTimely now ch) :
    a.wake.core.IsTimely now ch := by
  rw [core_wake]
  generalize a.core = x at h
  cases x <;> exact h

/-- A move leaves the meter at the end of the run as it is. -/
theorem tally_advance {a : Activity} (hu : a.Unrolls c.equipment.defaultSound (Action.Ends c.equipment))
    (hon : a.core.IsTimely c.now d.channel) (hask : c.equipment.AsksAtOnce) (hch : d.channel.InOrder)
    (ha : c.signals.aborted = false) (hp : c.signals.paused = false) (h : a.advance c d = some m) :
    m.next.tally c.equipment (m.devices.meter c.now) = a.tally c.equipment (d.meter c.now) ∧
      m.next.core.IsTimely c.now m.devices.channel ∧ m.devices.channel.InOrder := by
  unfold tally
  cases coreMove_advance hu ha h with
  | idle hcore hnext hahead hd hs =>
    rw [hd, hahead, settled_of_isBetween hcore, settled_of_isBetween hnext]
    exact ⟨rfl, isTimely_of_isBetween hnext _ _, hch⟩
  | activates s hcore hnext hahead hd hs =>
    rw [hd, hahead, hnext, settled_of_isBetween hcore, Meter.final_cons]
    exact ⟨rfl, trivial, hch⟩
  | acts hcore hm hnext hahead hd hs =>
    have hkeeps := keeps_advance (acts_core hu hcore) hon hask hch ha hp hm
    rw [hd, hahead, hnext, hkeeps.settled]
    exact ⟨rfl, hkeeps.timely, hkeeps.channel⟩

/-- The action under way does not end in the past. -/
theorem le_settled {a : Activity} {now : Instant} (hon : a.IsTimely now d.channel) (e : Equipment) :
    now.nanos ≤ (a.settled e (d.meter now)).now.nanos := by
  cases a with
  | entering s =>
    rw [settled, Meter.now_after]
    exact now.le_plusMillis _
  | counting id t => exact now.le_plusMillis _
  | sound url replays phase =>
    cases phase with
    | playing call =>
      obtain ⟨⟨k, hk⟩, -⟩ := hon
      rw [settled_playing hk]
      exact now.le_plusMillis k
    | _ => exact now.le_plusMillis _
  | notifying n phase grace =>
    cases phase with
    | asking due permission =>
      simp only [settled]
      split
      · exact now.le_plusMillis _
      · exact Nat.le_refl _
    | presenting due fails =>
      obtain ⟨delay, j, rfl, rfl⟩ := hon
      rw [settled_presenting, Instant.sooner_plusMillis]
      exact now.le_plusMillis _
  | _ => exact Nat.le_refl _

theorem le_tally {a : Activity} {now : Instant} (hon : a.core.IsTimely now d.channel) (e : Equipment) :
    now.nanos ≤ (a.tally e (d.meter now)).now.nanos := by
  rw [tally, Meter.now_final]
  exact Nat.le_trans (le_settled hon e) (Instant.le_plusMillis _ _)

end Activity

/-- What started according to some notes, in order. -/
def Note.starts (notes : List Note) : List Sight := (notes.map Note.sight).filter Sight.isStart

theorem Note.starts_append (notes more : List Note) : starts (notes ++ more) = starts notes ++ starts more := by
  simp [starts]

namespace Course

open Activity

/-- The meter of a run. -/
def meter (w : Course) : Meter := w.run.devices.meter w.run.now

/-- A run that nothing disturbs, with the meter at its end and all that starts in it. -/
structure Reckoned (w : Course) (final : Meter) (all : List Sight) : Prop where
  aborted : w.run.signals.aborted = false
  paused : w.run.signals.paused = false
  asks : w.run.equipment.AsksAtOnce
  unrolls : w.run.activity.Unrolls w.run.equipment.defaultSound (Action.Ends w.run.equipment)
  timely : w.run.activity.core.IsTimely w.run.now w.run.devices.channel
  channel : w.run.devices.channel.InOrder
  starts : Note.starts w.notes ++ w.run.activity.toStart w.run.equipment.defaultSound = all
  tally : w.run.activity.isDone = false → w.run.activity.tally w.run.equipment w.meter = final
  ended : w.run.ended = if w.run.activity.isDone then some final.now.millis else none

variable {w w' : Course} {final : Meter} {all : List Sight}

theorem isDone_of_advance {coin : Bool} {m : Move} (h : w.run.advance coin = some m) : w.run.activity.isDone = false := by
  unfold Solo.advance at h
  cases ha : w.run.activity with
  | done => rw [ha] at h; cases h
  | _ => rfl

theorem Reckoned.moved (h : w.Reckoned final all) {coin : Bool} {m : Move} (hm : w.run.advance coin = some m) :
    (w.moved m).Reckoned final all := by
  have hnot := isDone_of_advance hm
  obtain ⟨htally, htimely, hchannel⟩ := tally_advance (c := { w.run.circumstances with coin := coin }) h.unrolls h.timely
    h.asks h.channel h.aborted h.paused hm
  have hfinal : m.next.tally w.run.equipment (m.devices.meter w.run.now) = final := htally.trans (h.tally hnot)
  have hstarts := startsOf_advance (c := { w.run.circumstances with coin := coin }) h.unrolls rfl h.aborted h.paused hm
  refine ⟨h.aborted, h.paused, h.asks, advance_unrolls h.unrolls rfl hm, htimely, hchannel, ?_, fun _ => hfinal, ?_⟩
  · have hnotes : Note.starts (w.moved m).notes = Note.starts w.notes ++ w.run.activity.startsOf m := by
      show Note.starts (w.notes ++ _) = _
      rw [Note.starts_append]
      simp [Note.starts, startsOf, Function.comp_def]
    rw [hnotes, List.append_assoc]
    show Note.starts w.notes ++ (w.run.activity.startsOf m ++ m.next.toStart w.run.equipment.defaultSound) = all
    rw [hstarts, h.starts]
  · show (if m.next.isDone then some w.run.now.millis else w.run.ended) = if m.next.isDone then some final.now.millis else none
    cases hd : m.next.isDone with
    | true =>
      -- a run that is over has nothing ahead, and its meter is the one at its end
      rw [Activity.tally, core_of_isDone hd, ahead_of_isDone hd] at hfinal
      rw [← hfinal]
      rfl
    | false => simp [h.ended, hnot]

theorem Reckoned.woken (h : w.Reckoned final all) : w.woken.Reckoned final all := by
  have hdone : w.run.activity.wake.isDone = w.run.activity.isDone := by cases w.run.activity <;> rfl
  refine ⟨h.aborted, h.paused, h.asks, unrolls_wake h.unrolls, isTimely_wake h.timely, h.channel, ?_, fun hd => ?_, ?_⟩
  · show Note.starts w.notes ++ w.run.activity.wake.toStart w.run.equipment.defaultSound = all
    rw [toStart_wake]
    exact h.starts
  · show w.run.activity.wake.tally w.run.equipment w.meter = final
    rw [tally_wake]
    exact h.tally (hdone.symm.trans hd)
  · show w.run.ended = if w.run.activity.wake.isDone then some final.now.millis else none
    rw [hdone]
    exact h.ended

/-- A run that waits is over, or in an action that does not go on. -/
theorem Reckoned.rests (h : w.Reckoned final all) (hw : w.run.Waits) (hd : w.run.activity.isDone = false) :
    Rests w.run.circumstances w.run.activity.core := by
  obtain ⟨hcore, hdone | hp⟩ | ⟨hcore, hn⟩ := core_of_advance_eq_none h.unrolls h.aborted hw.1 (hw.2 true)
  · rw [hd] at hdone; cases hdone
  · have hnot : w.run.signals.paused = true := hp
    rw [h.paused] at hnot; cases hnot
  · exact rests_of_advance_eq_none (c := w.run.circumstances) (acts_core h.unrolls hcore) h.timely h.paused hn

theorem Reckoned.passed (h : w.Reckoned final all) {ms : Nat} (hw : w.run.Waits)
    (halarms : ∀ t ∈ w.run.activity.alarms, (w.run.now.plusMillis ms).nanos ≤ t.nanos) :
    (w.passed ms).Reckoned final all := by
  have hpass : w.run.activity.isDone = false →
      w.run.activity.core.settled w.run.equipment (w.run.devices.meter (w.run.now.plusMillis ms)) =
          w.run.activity.core.settled w.run.equipment w.meter ∧
        w.run.activity.core.IsTimely (w.run.now.plusMillis ms) w.run.devices.channel := by
    intro hd
    rw [← alarms_core h.unrolls] at halarms
    exact (h.rests hw hd).pass h.timely h.paused halarms
  constructor
  · rw [w.signals_passed]; exact h.aborted
  · rw [w.signals_passed]; exact h.paused
  · rw [w.equipment_passed]; exact h.asks
  · rw [w.activity_passed, w.equipment_passed]; exact h.unrolls
  · rw [w.activity_passed, w.now_passed, w.devices_passed]
    cases hd : w.run.activity.isDone with
    | true => rw [core_of_isDone hd]; trivial
    | false => exact (hpass hd).2
  · rw [w.devices_passed]; exact h.channel
  · rw [w.notes_passed, w.activity_passed, w.equipment_passed]; exact h.starts
  · intro hd
    rw [w.activity_passed] at hd ⊢
    have hmeter : (w.passed ms).meter = w.run.devices.meter (w.run.now.plusMillis ms) := by
      rw [meter, w.devices_passed, w.now_passed]
    rw [w.equipment_passed, hmeter, Activity.tally, (hpass hd).1]
    exact h.tally hd
  · rw [w.ended_passed, w.activity_passed]; exact h.ended

/-- A run that nothing disturbs. -/
abbrev Undisturbed : Course → Course → Prop := Step fun _ => False

theorem Reckoned.step (h : w.Reckoned final all) (hs : Undisturbed w w') : w'.Reckoned final all := by
  cases hs with
  | disturb x hx => cases hx
  | move coin hm => exact h.moved hm
  | wake _ => exact h.woken
  | pass ms _ hw halarms => exact h.passed hw halarms

/-- How far a run is from its end: the time that is left to it, and the moves that it has before it. -/
def toil (w : Course) (final : Meter) : Nat := (final.now.nanos - w.run.now.nanos) + w.run.activity.toil

/-- Every step of a run that is not over brings it nearer to its end. -/
theorem Reckoned.toil_step (h : w.Reckoned final all) (hd : w.run.activity.isDone = false) (hs : Undisturbed w w') :
    w'.toil final < w.toil final := by
  cases hs with
  | disturb x hx => cases hx
  | move coin hm =>
    have hlt := toil_advance (c := { w.run.circumstances with coin := coin }) h.unrolls h.timely h.aborted h.paused hm
    exact Nat.add_lt_add_left hlt _
  | wake hy =>
    have hlt := toil_wake h.unrolls hy
    exact Nat.add_lt_add_left hlt _
  | pass ms hpos hw halarms =>
    have hnext := h.passed hw halarms
    have hle := le_tally hnext.timely (w.passed ms).run.equipment
    have htally := hnext.tally (by rw [w.activity_passed]; exact hd)
    rw [meter] at htally
    rw [htally, w.now_passed] at hle
    have hnow : (w.run.now.plusMillis ms).nanos = w.run.now.nanos + ms * 1000000 := rfl
    rw [toil, toil, w.activity_passed, w.now_passed]
    omega

theorem Reckoned.returns {f : Nat → Course} (h : (f 0).Reckoned final all) (hf : ∀ n, Undisturbed (f n) (f (n + 1))) :
    ∃ n, (f n).run.ended = some final.now.millis := by
  suffices hall : ∀ k n, (f n).Reckoned final all → (f n).toil final ≤ k → ∃ i, (f i).run.ended = some final.now.millis from
    hall _ 0 h (Nat.le_refl _)
  intro k
  induction k with
  | zero =>
    intro n hn hk
    cases hd : (f n).run.activity.isDone with
    | true => exact ⟨n, by simp [hn.ended, hd]⟩
    | false =>
      have hlt := hn.toil_step hd (hf n)
      omega
  | succ k ih =>
    intro n hn hk
    cases hd : (f n).run.activity.isDone with
    | true => exact ⟨n, by simp [hn.ended, hd]⟩
    | false =>
      have hlt := hn.toil_step hd (hf n)
      exact ih (n + 1) (hn.step (hf n)) (by omega)

end Course

end StepTimer
