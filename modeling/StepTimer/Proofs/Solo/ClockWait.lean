/-
The wait for a time of the clock. The milliseconds up to the first time at which the clock shows it are counted
once, when the step becomes active, and from then on the wait goes by the time for which the run is awake: at every
moment the one and the other come to that total (`Clocked`). So it ends when the clock shows the time if the run
was never paused, and otherwise later, by just as long as it was paused.
-/
import StepTimer.Proofs.Solo.Span
import StepTimer.Proofs.Time.Occurrence

namespace StepTimer

namespace Ticking

variable {now : Instant} {signals : Signals} {dismissed : Bool} {t t' : Ticking} {m : TickMove}

/-- A countdown that comes to be held had not run down to its floor. -/
theorem floor_lt_of_held (h : t.advance now signals dismissed = some m) (ht : m.ticking? = some t')
    (hheld : t'.phase = .held) : t.phase = .top ∧ t.floor < t.countdown.remaining := by
  unfold advance at h
  split at h <;> rename_i hphase
  · split at h
    · cases h; cases ht
    · rename_i hgo
      simp only [Bool.or_eq_true, decide_eq_true_eq, not_or] at hgo
      exact ⟨hphase, by omega⟩
  · split at h <;> cases h
    cases ht
    cases hheld
  · split at h <;> cases h
    cases ht
    cases hheld

end Ticking

/-- The milliseconds that a wait for a written time takes when it begins at a reading of the clock. -/
def Action.clockMs (time : String) (half : Meridiem) (now : WallTime) : Nat :=
  millisUntilClock (sanitizeTime time "12:00") half now

theorem Action.toNat_clockMs (time : String) (half : Meridiem) (now : WallTime) :
    (UInt64.ofNat (clockMs time half now)).toNat = clockMs time half now := by
  have hle := millisUntilClock_le (sanitizeTime time "12:00") half now
  rw [UInt64.toNat_ofNat']
  simp only [clockMs, WallTime.dayMillis] at hle ⊢
  omega

/-- Whether a wall clock goes on with the monotonic one. -/
def Equipment.GoesOn (e : Equipment) : Prop := ∀ t ms, e.wall (t.plusMillis ms) = (e.wall t).plusMillis ms

namespace Activity

/-- A wait for a time of the clock that takes a total, of which so many milliseconds are spent. -/
inductive Clocked (e : Equipment) (now : Instant) (total spent : Nat) : Activity → Prop
  | entering (id : StepId) {time : String} {half : Meridiem} (htotal : total = Action.clockMs time half (e.wall now))
      (hspent : spent = 0) : Clocked e now total spent (entering (.leaf id (.waitUntil time half)))
  | counting (id : StepId) {t : Ticking} (ht : t.InOrder now) (hfloor : t.floor = 0)
      (hleft : t.countdown.left now + spent = total) (hheld : t.phase = .held → spent < total) :
      Clocked e now total spent (counting id t)

variable {e : Equipment} {now : Instant} {total spent : Nat} {a : Activity} {c : Circumstances} {d : Devices} {m : Move}

theorem Clocked.isDone_eq (h : Clocked e now total spent a) : a.isDone = false := by cases h <;> rfl

theorem Clocked.wake_eq (h : Clocked e now total spent a) : a.wake = a := by cases h <;> rfl

theorem Clocked.spent_le (h : Clocked e now total spent a) : spent ≤ total := by
  cases h with
  | entering id htotal hspent => omega
  | counting id ht hfloor hleft =>
    have hle := ht.floor_le_left
    omega

/-- A wait has no blocks in it. -/
theorem Clocked.eachBlock {P : Frame → List Step → Prop} (h : Clocked e now total spent a) : a.EachBlock P := by
  cases h <;> trivial

/-- A move of a wait spends nothing of its total, or ends it when that is spent, or by an abort. -/
theorem Clocked.advance (h : Clocked c.equipment c.now total spent a) (hm : a.advance c d = some m) :
    Clocked c.equipment c.now total spent m.next ∨ m.next = done ∧ (c.signals.aborted = true ∨ spent = total) := by
  cases h with
  | @entering id time half htotal hspent =>
    cases hm
    refine Or.inl ?_
    have hnat := Action.toNat_clockMs time half (c.equipment.wall c.now)
    have hle := millisUntilClock_le (sanitizeTime time "12:00") half (c.equipment.wall c.now)
    have hat := Countdown.isAt_start (UInt64.ofNat (Action.clockMs time half (c.equipment.wall c.now))) c.now
    have hcount : ((UInt64.ofNat (Action.clockMs time half (c.equipment.wall c.now))).toNat : Int) ≤ countMax := by
      rw [hnat]
      simp only [Action.clockMs, WallTime.dayMillis, countMax] at hle ⊢
      omega
    have hleft := Countdown.left_start hcount c.now
    rw [hnat] at hleft
    refine .counting id (Ticking.inOrder_start hat hat.nonneg _) rfl ?_ fun hheld => by cases hheld
    rw [hspent, htotal]
    exact (Int.add_zero _).trans hleft
  | @counting id t ht hfloor hleft hheld =>
    obtain ⟨tm, htm, rfl⟩ := Option.map_eq_some_iff.1 hm
    rcases ht.advance htm with ⟨countdown, rfl, hends⟩ | ⟨t', ht', hgoes⟩
    · refine Or.inr ⟨rfl, hends.cause.imp_right fun hcause => ?_⟩
      rcases hcause with hdismissed | hover
      · cases hdismissed
      · have hsame := hends.left
        omega
    · refine Or.inl ?_
      have hnext : Clocked c.equipment c.now total spent (.counting id t') := by
        refine .counting id hgoes.inOrder (hgoes.floor.trans hfloor) (by rw [hgoes.left]; exact hleft) fun hheld' => ?_
        -- the pause is seen at the top of a tick, where a wait that is over has ended
        obtain ⟨htop, hlt⟩ := Ticking.floor_lt_of_held htm ht' hheld'
        have hrem := (ht.isAt htop).left_eq
        omega
      cases tm <;> cases ht' <;> exact hnext

/-- The time that passes while a wait does not go on is spent, unless the run is paused. -/
theorem Clocked.pass {ms : Nat} (h : Clocked c.equipment c.now total spent a) (hn : a.advance c d = none)
    (halarms : ∀ t ∈ a.alarms, (c.now.plusMillis ms).nanos ≤ t.nanos) :
    Clocked c.equipment (c.now.plusMillis ms) total (spent + if c.signals.paused then 0 else ms) a := by
  cases h with
  | entering => cases hn
  | @counting id t ht hfloor hleft hheld =>
    have hrest := Option.map_eq_none_iff.1 hn
    obtain ⟨hin, hsunk⟩ := ht.pass hrest halarms
    refine .counting id hin hfloor (by rw [hsunk]; split <;> push_cast <;> omega) fun hphase => ?_
    rcases Ticking.rests_cases hrest with ⟨-, hp⟩ | ⟨alarm, hasleep, -⟩
    · simpa [hp] using hheld hphase
    · rw [hphase] at hasleep
      cases hasleep

/-- A wait whose total is spent goes on. -/
theorem Clocked.goes_of_spent (h : Clocked c.equipment c.now total total a) : a.advance c d ≠ none := by
  intro hn
  cases h with
  | entering => cases hn
  | @counting id t ht hfloor hleft hheld =>
    rcases Ticking.rests_cases (Option.map_eq_none_iff.1 hn) with ⟨hphase, -⟩ | ⟨alarm, hphase, hlate, -⟩
    · exact absurd (hheld hphase) (Nat.lt_irrefl _)
    · have hplaced := ht.placed
      rw [Ticking.IsPlaced, hphase] at hplaced
      obtain ⟨start, j, k, ha, hnow, rfl, hjk, -, hk⟩ := hplaced
      rw [hnow] at hleft hlate
      rw [Countdown.left_plusMillis ha] at hleft
      have hle := (start.plusMillis_le_iff k j).2 (by omega)
      omega

end Activity

namespace Course

open Activity

variable {n total spent : Nat} {w w' : Course} {ok : Disturbance → Prop}

/-- The clock moves on by the milliseconds for which the run is awake, and by those for which it is not. -/
def Elapses (w w' : Course) (asleep : Nat) : Prop :=
  w.awake ≤ w'.awake ∧ w'.run.now = w.run.now.plusMillis (w'.awake - w.awake + asleep)

theorem elapses_of_still (hnow : w'.run.now = w.run.now) (hawake : w'.awake = w.awake) : w.Elapses w' 0 := by
  refine ⟨Nat.le_of_eq hawake.symm, ?_⟩
  rw [hnow, hawake, Nat.sub_self, Nat.zero_add, Instant.plusMillis_zero]

theorem Elapses.trans {v : Course} {j k : Nat} (h : w.Elapses v j) (h' : v.Elapses w' k) : w.Elapses w' (j + k) := by
  obtain ⟨hle, hnow⟩ := h
  obtain ⟨hle', hnow'⟩ := h'
  refine ⟨Nat.le_trans hle hle', ?_⟩
  rw [hnow', hnow, Instant.plusMillis_plusMillis]
  congr 1
  omega

theorem Step.elapses (hs : Step ok w w') :
    ∃ asleep, w.Elapses w' asleep ∧ (w.run.signals.paused = false → w.run.activity.isDone = false → asleep = 0) := by
  cases hs with
  | disturb x _ => exact ⟨0, elapses_of_still (w.now_disturbed x) (w.awake_disturbed x), fun _ _ => rfl⟩
  | move coin hm => exact ⟨0, elapses_of_still rfl rfl, fun _ _ => rfl⟩
  | wake _ => exact ⟨0, elapses_of_still rfl rfl, fun _ _ => rfl⟩
  | pass ms _ _ _ =>
    have hle : w.waking ms ≤ ms := by
      unfold waking
      split <;> omega
    refine ⟨ms - w.waking ms, ⟨by rw [w.awake_passed]; omega, ?_⟩, fun hp hd => ?_⟩
    · rw [w.now_passed, w.awake_passed]
      congr 1
      omega
    · rw [waking_of_not_isDone hd, hp]
      exact Nat.sub_self ms

theorem Stays.elapses (hs : Stays n w w') : ∃ asleep, w.Elapses w' asleep := by
  induction hs with
  | refl => exact ⟨0, elapses_of_still rfl rfl⟩
  | tail _ hstep ih =>
    obtain ⟨asleep, h⟩ := ih
    obtain ⟨asleep', h', -⟩ := hstep.1.elapses
    exact ⟨asleep + asleep', h.trans h'⟩

theorem Stays.equipment (hs : Stays n w w') : w'.run.equipment = w.run.equipment := by
  induction hs with
  | refl => rfl
  | tail _ hstep ih => exact hstep.1.equipment.trans ih

/-- A run that is in a wait for a time of the clock at a depth. -/
def InWait (n total spent : Nat) (w : Course) : Prop :=
  ∃ b, w.run.activity.inner n = some b ∧ Clocked w.run.equipment w.run.now total spent b

theorem InWait.isUnder (h : w.InWait n total spent) : w.IsUnder n := by
  obtain ⟨b, hb, hclocked⟩ := h
  exact ⟨b, hb, hclocked.isDone_eq⟩

theorem InWait.spent_le (h : w.InWait n total spent) : spent ≤ total := by
  obtain ⟨b, -, hclocked⟩ := h
  exact hclocked.spent_le

/-- What a step of a course makes of a wait that the run is in: the time for which the run is awake is spent, or
the wait ends when its total is spent, or by an abort, or it is given up with what is around it. -/
theorem InWait.step (h : w.InWait n total spent) (hs : Step ok w w') :
    w'.InWait n total (spent + (w'.awake - w.awake)) ∨
      (w'.run.activity.inner n = some .done ∧ w'.run.now = w.run.now ∧ w'.awake = w.awake ∧
        (w.run.signals.aborted = true ∨ spent = total)) ∨
      w'.run.activity.inner n = none := by
  obtain ⟨b, hb, hclocked⟩ := h
  have hsame (hawake : w'.awake = w.awake) : spent + (w'.awake - w.awake) = spent := by omega
  cases hs with
  | disturb x _ =>
    rw [hsame (w.awake_disturbed x)]
    refine Or.inl ⟨b, by rw [w.activity_disturbed]; exact hb, ?_⟩
    rw [w.equipment_disturbed, w.now_disturbed]
    exact hclocked
  | @move coin m hm =>
    rw [hsame rfl]
    cases inner_advance hb hclocked.isDone_eq hm with
    | moves hmb hnext =>
      rcases Clocked.advance (c := { w.run.circumstances with coin := coin }) hclocked hmb with hclocked' | ⟨hdone, hcause⟩
      · exact Or.inl ⟨_, hnext, hclocked'⟩
      · exact Or.inr (Or.inl ⟨hnext.trans (congrArg some hdone), rfl, rfl, hcause⟩)
    | stays hnext => exact Or.inl ⟨b, hnext, hclocked⟩
    | dropped hnext => exact Or.inr (Or.inr hnext)
  | wake _ =>
    rw [hsame rfl]
    exact Or.inl ⟨b, (inner_wake hb).trans (congrArg some hclocked.wake_eq), hclocked⟩
  | pass ms _ hw halarms =>
    have hrest : b.advance w.run.circumstances w.run.devices = none := advance_inner_eq_none hb (hw.2 true)
    have hpass := Clocked.pass (c := w.run.circumstances) hclocked hrest fun t ht => halarms t (alarms_inner hb t ht)
    have hdone : w.run.activity.isDone = false := not_isDone_of_inner hb hclocked.isDone_eq
    have hwaking : (w.passed ms).awake - w.awake = w.waking ms := by rw [w.awake_passed]; omega
    refine Or.inl ⟨b, by rw [w.activity_passed]; exact hb, ?_⟩
    rw [w.equipment_passed, w.now_passed, hwaking, waking_of_not_isDone hdone]
    exact hpass

/-- As long as the run stays in a wait, what is spent of it is the time for which the run has been awake. -/
theorem InWait.stays (h : w.InWait n total spent) (hs : Stays n w w') :
    w'.InWait n total (spent + (w'.awake - w.awake)) := by
  induction hs with
  | refl => rw [Nat.sub_self]; exact h
  | @tail v v' hstays hstep ih =>
    obtain ⟨b, hb, hnot⟩ := hstep.2
    rcases ih.step hstep.1 with hnext | ⟨hdone, -⟩ | hnone
    · obtain ⟨-, hle, -⟩ := Stays.elapses hstays
      obtain ⟨-, ⟨hle', -⟩, -⟩ := hstep.1.elapses
      have hsum : spent + (v.awake - w.awake) + (v'.awake - v.awake) = spent + (v'.awake - w.awake) := by omega
      rw [← hsum]
      exact hnext
    · rw [hb] at hdone
      cases hdone
      cases hnot
    · rw [hb] at hnone
      cases hnone

/-- No time passes any more when the total of a wait is spent. -/
theorem InWait.not_waits (h : w.InWait n total total) : ¬ w.run.Waits := by
  obtain ⟨b, hb, hclocked⟩ := h
  intro hw
  exact Clocked.goes_of_spent (c := w.run.circumstances) hclocked (advance_inner_eq_none hb (hw.2 true))

/-- A run that is in a wait for a time of the clock, with nothing that holds it up. -/
structure Expects (n total spent : Nat) (w : Course) : Prop where
  inWait : w.InWait n total spent
  aborted : w.run.signals.aborted = false
  paused : w.run.signals.paused = false

/-- A wait that nothing disturbs goes on with the clock, or ends when its total is spent, or is given up with a
round that it is in. -/
theorem Expects.undisturbed (h : w.Expects n total spent) (hs : w.Undisturbed w') :
    (∃ ms, w'.Expects n total (spent + ms) ∧ w'.run.now = w.run.now.plusMillis ms ∧
      w'.run.activity.isInRound n = w.run.activity.isInRound n) ∨
      (w'.run.activity.inner n = some .done ∧ w'.run.now = w.run.now ∧ spent = total) ∨
      w'.run.activity.inner n = none ∧ w.run.activity.isInRound n = true := by
  obtain ⟨b, hb, hclocked⟩ := h.inWait
  have hu := hs.under h.aborted hb hclocked.isDone_eq
  rcases h.inWait.step hs with hnext | ⟨hdone, hnow, -, hcause⟩ | hnone
  · obtain ⟨asleep, ⟨-, hnow⟩, hzero⟩ := hs.elapses
    have hgoing : w.run.activity.isDone = false := not_isDone_of_inner hb hclocked.isDone_eq
    rw [hzero h.paused hgoing, Nat.add_zero] at hnow
    have ⟨b', hb', _⟩ := hnext
    exact Or.inl ⟨w'.awake - w.awake, ⟨hnext, hs.signals ▸ h.aborted, hs.signals ▸ h.paused⟩, hnow, hu.isInRound hb'⟩
  · refine Or.inr (Or.inl ⟨hdone, hnow, hcause.resolve_left fun habort => ?_⟩)
    rw [h.aborted] at habort
    cases habort
  · refine Or.inr (Or.inr ⟨hnone, ?_⟩)
    cases hu with
    | moves _ hnext => rw [hnone] at hnext; cases hnext
    | stays hnext => rw [hnone] at hnext; cases hnext
    | wakes hnext => rw [hnone] at hnext; cases hnext
    | passes _ _ hnext => rw [hnone] at hnext; cases hnext
    | dropped _ hround => exact hround

/-- A wait that nothing disturbs ends when what is left of its total has passed, or is given up with a round that
it is in. -/
theorem Expects.ends {f : Nat → Course} (hf : ∀ k, (f k).Undisturbed (f (k + 1))) (h : (f 0).Expects n total spent)
    (ho : (f 0).Orderly) : EndsAfter n f (total - spent) ∨ GivesUp n f := by
  refine (stays_or_ends (f := f)
      (P := fun k => ∃ el, (f k).Expects n total (spent + el) ∧ (f k).run.now = (f 0).run.now.plusMillis el)
      (Q := fun w => w.run.now = (f 0).run.now.plusMillis (total - spent))
      ⟨0, h, (f 0).run.now.plusMillis_zero.symm⟩ (fun k ⟨el, hk, _⟩ => hk.inWait.isUnder) ?_).resolve_left fun hall => ?_
  · rintro k ⟨el, hk, hnow⟩
    rcases hk.undisturbed (hf k) with ⟨ms, hnext, hpassed, hround⟩ | ⟨hdone, hstill, hover⟩ | hgives
    · refine Or.inl ⟨⟨el + ms, Nat.add_assoc .. ▸ hnext, ?_⟩, hround⟩
      rw [hpassed, hnow, Instant.plusMillis_plusMillis]
    · refine Or.inr (Or.inl ⟨hdone, ?_⟩)
      rw [hstill, hnow]
      congr 1
      omega
    · exact Or.inr (Or.inr hgives)
  -- if it went on for ever it would go beyond the instant at which its total is spent
  · obtain ⟨b, hb, hclocked⟩ := h.inWait
    have htrue : (⟨fun _ => false, (f 0).run.equipment.defaultSound⟩ : Hearing).IsTrue (f 0).run.equipment :=
      ⟨nofun, rfl⟩
    have hstays (k : Nat) : (f k).IsUnder n := by
      obtain ⟨el, hk, -⟩ := hall k
      exact hk.inWait.isUnder
    obtain ⟨k, hbeyond⟩ := exists_beyond hf ho htrue hb hclocked.eachBlock hstays ((f 0).run.now.plusMillis total).nanos
    obtain ⟨el, hk, hnow⟩ := hall k
    have hle := hk.inWait.spent_le
    rw [hnow] at hbeyond
    exact Nat.not_lt.2 ((Instant.plusMillis_le_iff _ el total).2 (by omega)) hbeyond

/-- A pause moves the end of a wait for a time of the clock. From the moment at which its step becomes active, at
any depth of a run and whatever befalls that, the run is never awake for longer than the milliseconds up to the
first time at which the clock shows the time; when it has been awake for just as long no more time passes, and
without an abort the wait ends just then. So at its end the clock is beyond the time by as long as the run was
asleep, and a run that is awake and left alone, whatever its clock shows, is still in the wait until its
total is spent. -/
theorem clock_wait {w₁ : Course} {id : StepId} {time : String} {half : Meridiem}
    (h₁ : w₁.run.activity.inner n = some (.entering (.leaf id (.waitUntil time half))))
    (hwall : w₁.run.equipment.GoesOn) (h : Stays n w₁ w) (ha : w.run.signals.aborted = false) :
    ∃ total, (w₁.run.equipment.wall w₁.run.now).FirstShows (ClockTime.meant (sanitizeTime time "12:00") half) total ∧
      w₁.awake ≤ w.awake ∧ w.awake - w₁.awake ≤ total ∧ (w.awake - w₁.awake = total → ¬ w.run.Waits) ∧
      (∀ w', Step (fun _ => True) w w' → w'.run.activity.inner n = some .done →
        ∃ asleep, w₁.Elapses w' asleep ∧ w'.awake - w₁.awake = total ∧
          w'.run.equipment.wall w'.run.now = ((w₁.run.equipment.wall w₁.run.now).plusMillis total).plusMillis asleep) ∧
      ∀ f : Nat → Course, f 0 = w → (∀ k, (f k).Undisturbed (f (k + 1))) → w.Orderly → w.run.signals.paused = false →
        EndsAfter n f (total - (w.awake - w₁.awake)) ∨ GivesUp n f := by
  have hbegin : w₁.InWait n (Action.clockMs time half (w₁.run.equipment.wall w₁.run.now)) 0 := ⟨_, h₁, .entering id rfl rfl⟩
  have hw := hbegin.stays h
  rw [Nat.zero_add] at hw
  obtain ⟨asleep, helapses⟩ := Stays.elapses h
  have hequipment := Stays.equipment h
  refine ⟨Action.clockMs time half _, firstShows_millisUntilClock _ half _, helapses.1, hw.spent_le, fun hspent => ?_,
    fun w' hs hdone => ?_, ?_⟩
  · exact (hspent ▸ hw : w.InWait n _ _).not_waits
  · rcases hw.step hs with hnext | ⟨-, hnow, hawake, hcause⟩ | hnone
    · obtain ⟨b, hb, hnot⟩ := hnext.isUnder
      rw [hb] at hdone
      cases hdone
      cases hnot
    · have hspent := hcause.resolve_left fun habort => by rw [ha] at habort; cases habort
      have hend : w₁.Elapses w' (asleep + 0) := helapses.trans (elapses_of_still hnow hawake)
      refine ⟨asleep, hend, by rw [hawake]; exact hspent, ?_⟩
      rw [hs.equipment, hequipment, hnow, helapses.2, hspent, hwall, WallTime.plusMillis_plusMillis]
    · rw [hnone] at hdone
      cases hdone
  · rintro f rfl hf ho hp
    exact Expects.ends hf ⟨hw, ha, hp⟩ ho

/-- A reminder for one minute past nine, a second before that. -/
def reminder : Course :=
  (⟨.ofSteps ⟨fun _ _ => .endless, .off, "bell", fun t => ⟨32459000 + t.millis⟩⟩
    [.leaf "meet" (.waitUntil "9:01" .am)], 0, []⟩ : Course).goOn 1

/-- The wait is paused from 400 to 700 milliseconds. -/
def reminderResumed : Course :=
  ((((((reminder.stayOn 1 20).passed 250).stayOn 1 20).passed 150).disturbed (.control .pause)).stayOn 1 20).passed 300
    |>.disturbed (.control .resume)

/-- The minute has come. -/
def reminderDue : Course := (((reminderResumed.stayOn 1 20).passed 250).stayOn 1 20).passed 50

/-- What was left of the second has passed. -/
def reminderEnding : Course := (((reminderDue.stayOn 1 20).passed 200).stayOn 1 20).passed 100 |>.stayOn 1 20

theorem stays_reminderDue : Stays 1 reminder reminderDue := by
  have hresumed : Stays 1 reminder reminderResumed := by
    refine (stays_elapsed 20 250 (by decide) (Solo.waits_of_sides rfl rfl rfl) (by decide) ⟨_, rfl, rfl⟩).trans ?_
    refine (stays_elapsed 20 150 (by decide) (Solo.waits_of_sides rfl rfl rfl) (by decide) ⟨_, rfl, rfl⟩).trans ?_
    refine (stays_disturbed (.control .pause) ⟨_, rfl, rfl⟩).trans ?_
    refine (stays_elapsed 20 300 (by decide) (Solo.waits_of_sides rfl rfl rfl) (by decide) ⟨_, rfl, rfl⟩).trans ?_
    exact stays_disturbed (.control .resume) ⟨_, rfl, rfl⟩
  refine hresumed.trans ?_
  refine (stays_elapsed 20 250 (by decide) (Solo.waits_of_sides rfl rfl rfl) (by decide) ⟨_, rfl, rfl⟩).trans ?_
  exact stays_elapsed 20 50 (by decide) (Solo.waits_of_sides rfl rfl rfl) (by decide) ⟨_, rfl, rfl⟩

theorem stays_reminderEnding : Stays 1 reminderDue reminderEnding := by
  refine (stays_elapsed 20 200 (by decide) (Solo.waits_of_sides rfl rfl rfl) (by decide) ⟨_, rfl, rfl⟩).trans ?_
  refine (stays_elapsed 20 100 (by decide) (Solo.waits_of_sides rfl rfl rfl) (by decide) ⟨_, rfl, rfl⟩).trans ?_
  exact stays_stayOn 1 20 _

/-- The reminder is not paused when its clock shows the minute, and comes 300 milliseconds later. -/
theorem clock_wait_reminder :
    (reminderDue.run.equipment.wall reminderDue.run.now).timeOfDay = ClockTime.timeOfDay ⟨9, 1⟩ .am ∧
      reminderDue.run.signals.paused = false ∧ reminderDue.IsUnder 1 ∧
      ∃ w', Step (fun _ => True) reminderEnding w' ∧ w'.run.activity.inner 1 = some .done ∧
        w'.run.equipment.wall w'.run.now = (reminderDue.run.equipment.wall reminderDue.run.now).plusMillis 300 := by
  obtain ⟨m, hm, hdone⟩ : ∃ m, reminderEnding.run.advance true = some m ∧ m.next.inner 1 = some .done := ⟨_, rfl, rfl⟩
  have hend : Step (fun _ => True) reminderEnding (reminderEnding.moved m) := .move true hm
  have hentered : reminder.run.activity.inner 1 = some (.entering _) := rfl
  have hreads (t : Instant) : reminder.run.equipment.wall t = ⟨32459000 + t.millis⟩ := rfl
  have hwall : reminder.run.equipment.GoesOn := fun t ms => by
    rw [hreads, hreads, Instant.millis_plusMillis, WallTime.plusMillis]
    simp only [WallTime.mk.injEq]
    omega
  obtain ⟨total, hfirst, -, -, -, hends, -⟩ :=
    clock_wait hentered hwall (stays_reminderDue.trans stays_reminderEnding) rfl
  obtain ⟨asleep, ⟨-, hnow⟩, hspent, hshows⟩ := hends _ hend hdone
  have hstill (w : Course) : (w.moved m).run.now = w.run.now ∧ (w.moved m).awake = w.awake := ⟨rfl, rfl⟩
  have hclock : reminderEnding.run.now = reminder.run.now.plusMillis 1300 := by decide +kernel
  have hawake : reminderEnding.awake - reminder.awake = 1000 := by decide +kernel
  rw [(hstill _).1, (hstill _).2, hclock, hawake] at hnow
  rw [(hstill _).2, hawake] at hspent
  have hlate : asleep = 300 := by
    have hsum := Instant.plusMillis_inj hnow
    omega
  refine ⟨by decide +kernel, rfl, ⟨_, rfl, rfl⟩, _, hend, hdone, ?_⟩
  rw [hshows, ← hspent, hlate]
  decide +kernel

end Course

end StepTimer
