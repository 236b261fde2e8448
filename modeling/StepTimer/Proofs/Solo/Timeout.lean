/-
The timeout of an alert. From the moment at which its step becomes active to its end, what is left on
the countdown of the alert is its timeout less the time for which the run has been awake (`Alarmed`):
the countdown is handed from the announcement to the rounds and the pauses between them, it is settled
after every round, however that came to its end, and a pause is taken off in none of these places. The
steps in the rounds have no part in that, nor has what the alert itself is in.
-/
import StepTimer.Proofs.Engine.Calls
import StepTimer.Proofs.Engine.Countdowns
import StepTimer.Proofs.Engine.Depth
import StepTimer.Proofs.Solo.Course

namespace StepTimer

/-- Whether a notifier answers every call at once. -/
def Notifier.AnswersAtOnce (k : Notifier) : Prop := ∀ n, (k.ask n).delayMs = some 0 ∧ (k.present n).delayMs = some 0

/-- What a run has in the slot is gone when its sound is silenced. -/
theorem Channel.owner_ne_of_stopOwnedBy {ch : Channel} {owner : RunId} {p : Playback}
    (h : (ch.stopOwnedBy owner).current = some p) : p.owner ≠ owner := by
  unfold stopOwnedBy at h
  split at h
  · rename_i hnone
    rw [hnone] at h
    cases h
  · rename_i q hq
    split at h
    · simp [stop, hq] at h
    · rename_i hne
      rw [hq] at h
      cases h
      exact hne

namespace Activity

/-- The alert that an activity is in, once its notification is up or could not be shown. -/
def raised? : Activity → Option Raised
  | alertTop r _ => some r
  | alertHeld r _ => some r
  | alertRound r _ _ => some r
  | alertGap r _ => some r
  | _ => none

/-- An alert step with what is left of its time at an instant. -/
inductive Alarmed (now : Instant) (left : Int) : Activity → Prop
  | entering (id : StepId) {alert : Alert} (children : List Step) (hle : (alert.timeout.toNat : Int) ≤ countMax)
      (hleft : left = alert.timeout.toNat) : Alarmed now left (entering (.block id (.notifyUntil alert) children))
  | announcing (id : StepId) (alert : Alert) (children : List Step) {countdown : Countdown} {phase : NoticePhase}
      (hc : countdown.IsAt now) (hleft : countdown.left now = left) (hdue : phase.due = some now) :
      Alarmed now left (announcing id alert children countdown phase)
  | top (r : Raised) {countdown : Countdown} (hc : countdown.IsAt now) (hleft : countdown.left now = left) :
      Alarmed now left (alertTop r countdown)
  | held (r : Raised) {countdown : Countdown} (hc : countdown.IsAt now) (hnone : countdown.anchor = none)
      (hleft : countdown.left now = left) : Alarmed now left (alertHeld r countdown)
  | round (r : Raised) {t : Ticking} (current : Activity) (ht : t.InOrder now) (hleft : t.countdown.left now = left) :
      Alarmed now left (alertRound r t current)
  | gap (r : Raised) {t : Ticking} (ht : t.InOrder now) (hleft : t.countdown.left now = left) :
      Alarmed now left (alertGap r t)

variable {now : Instant} {left : Int} {a : Activity} {c : Circumstances} {d : Devices} {m : Move}

theorem Alarmed.nonneg (h : Alarmed now left a) : 0 ≤ left := by
  cases h with
  | entering id children hle hleft => omega
  | announcing _ _ _ hc hleft => rw [← hleft, hc.left_eq]; exact hc.nonneg
  | top _ hc hleft => rw [← hleft, hc.left_eq]; exact hc.nonneg
  | held _ hc _ hleft => rw [← hleft, hc.left_eq]; exact hc.nonneg
  | round _ _ ht hleft => rw [← hleft]; exact Int.le_trans ht.floor ht.floor_le_left
  | gap _ ht hleft => rw [← hleft]; exact Int.le_trans ht.floor ht.floor_le_left

theorem Alarmed.isDone_eq (h : Alarmed now left a) : a.isDone = false := by cases h <;> rfl

theorem Alarmed.wake (h : Alarmed now left a) : Alarmed now left a.wake := by
  cases h with
  | entering id children hle hleft => exact .entering id children hle hleft
  | announcing id alert children hc hleft hdue => exact .announcing id alert children hc hleft hdue
  | top r hc hleft => exact .top r hc hleft
  | held r hc hnone hleft => exact .held r hc hnone hleft
  | round r current ht hleft => exact .round r current.wake ht hleft
  | gap r ht hleft => exact .gap r ht hleft

/-- After a round the time passed is taken off, and nothing else. -/
theorem alarmed_afterRound {countdown : Countdown} (h : countdown.IsBehind c.now) (r : Raised) (d : Devices)
    (events : List Event) : Alarmed c.now (countdown.left c.now) (r.afterRound countdown c d events).next := by
  obtain ⟨hat, hleft, -⟩ := h.settle
  unfold Raised.afterRound
  dsimp only
  split
  · have hfloor : (countdown.settle c.now).remaining - min (r.alert.intervalMs.toNat : Int) countMax ≤
        (countdown.settle c.now).remaining := by
      simp only [countMax]
      omega
    exact .gap r (Ticking.inOrder_start hat hfloor _) hleft
  · exact .top r hat hleft

/-- How an alert comes to its end: it is aborted, or dismissed, or nothing is left of its time. Then
the sound of its run is silenced. -/
structure Finishes (c : Circumstances) (d : Devices) (left : Int) (a : Activity) (m : Move) : Prop where
  next : m.next = done
  cause : c.signals.aborted = true ∨ (∃ r countdown, a = alertTop r countdown ∧ r.isDismissed d = true) ∨ left = 0
  devices : m.devices = c.silence d

theorem Alarmed.advance_top {r : Raised} {countdown : Countdown} (hc : countdown.IsAt c.now)
    (hleft : countdown.left c.now = left) :
    Finishes c d left (alertTop r countdown) (advanceAlertTop r countdown c d) ∨
      Alarmed c.now left (advanceAlertTop r countdown c d).next := by
  unfold advanceAlertTop
  split
  · rename_i hend
    refine Or.inl ⟨rfl, ?_, rfl⟩
    simp only [Bool.or_eq_true, Countdown.expired, decide_eq_true_eq] at hend
    rcases hend with (hend | hend) | hend
    · exact Or.inl hend
    · exact Or.inr (Or.inl ⟨r, countdown, rfl, hend⟩)
    · refine Or.inr (Or.inr ?_)
      rw [← hleft, hc.left_eq]
      exact Int.le_antisymm hend hc.nonneg
  · split
    · obtain ⟨hat, hnone, hrem⟩ := hc.isBehind.suspend
      exact Or.inr (.held r hat hnone (by rw [hat.left_eq, hrem, hleft]))
    · exact Or.inr (.round r (r.round c) (Ticking.inOrder_start hc hc.nonneg _) hleft)

/-- A call that is answered at once has returned. -/
theorem due_ask (h : c.equipment.notifier.AnswersAtOnce) : (c.ask d).1.due = some c.now := by
  have hdelay : (c.ask d).1.due = (some 0).map c.now.plusMillis := congrArg (Option.map _) (h d.board.calls).1
  exact hdelay.trans (congrArg some c.now.plusMillis_zero)

theorem due_present (h : c.equipment.notifier.AnswersAtOnce) : (c.present d).1.due = some c.now := by
  have hdelay : (c.present d).1.due = (some 0).map c.now.plusMillis := congrArg (Option.map _) (h d.board.calls).2
  exact hdelay.trans (congrArg some c.now.plusMillis_zero)

theorem Alarmed.advance_announcing {id : StepId} {alert : Alert} {children : List Step} {countdown : Countdown}
    {phase : NoticePhase} (hc : countdown.IsAt c.now) (hleft : countdown.left c.now = left)
    (hask : c.equipment.notifier.AnswersAtOnce)
    (h : (Activity.announcing id alert children countdown phase).advance c d = some m) : Alarmed c.now left m.next := by
  obtain ⟨nm, hnm, rfl⟩ := Option.map_eq_some_iff.1 h
  cases nm with
  | goes phase' d' =>
    refine .announcing id alert children hc hleft ?_
    cases phase with
    | asking due permission =>
      simp only [NoticePhase.advance] at hnm
      split at hnm
      · split at hnm <;> cases hnm
        exact due_present hask
      · cases hnm
    | presenting due fails =>
      simp only [NoticePhase.advance] at hnm
      split at hnm <;> cases hnm
  | shown notice d' => exact .top _ hc hleft
  | refused d' => exact .top _ hc hleft

/-- A move of an alert that is up ends it, or takes nothing from what is left of its time. -/
theorem Alarmed.advance_raised {r : Raised} (h : Alarmed c.now left a) (hr : a.raised? = some r)
    (hm : a.advance c d = some m) :
    Finishes c d left a m ∨ Alarmed c.now left m.next ∧ m.next.raised? = some r := by
  have hafter {countdown : Countdown} (hc : countdown.IsBehind c.now) (hleft : countdown.left c.now = left) (d : Devices)
      (events : List Event) : Alarmed c.now left (r.afterRound countdown c d events).next ∧
        (r.afterRound countdown c d events).next.raised? = some r := by
    refine ⟨hleft ▸ alarmed_afterRound hc r d events, ?_⟩
    obtain ⟨report, -, ⟨t, -, -, he⟩ | ⟨countdown', he⟩⟩ := afterRound_cases r countdown c d events <;> rw [he] <;> rfl
  cases h with
  | entering => cases hr
  | announcing => cases hr
  | top _ hc hleft =>
    cases hr
    cases hm
    refine (advance_top hc hleft).imp_right fun hnext => ⟨hnext, ?_⟩
    rcases alertTop_cases r _ c d with he | ⟨-, ⟨countdown', he⟩ | ⟨t, -, he⟩⟩ <;> rw [he] at hnext ⊢
    · cases hnext
    · rfl
    · rfl
  | held _ hc hnone hleft =>
    cases hr
    rw [advance_alertHeld hm]
    exact Or.inr ⟨.top r hc hleft, rfl⟩
  | @round _ t current ht hleft =>
    cases hr
    refine Or.inr ?_
    rcases advance_alertRound hm with ⟨-, rfl⟩ | ⟨m', -, rfl⟩ | hm
    · exact hafter ht.isBehind hleft d []
    · exact ⟨.round r m'.next ht hleft, rfl⟩
    · obtain ⟨tm, htm, rfl⟩ := Option.map_eq_some_iff.1 hm
      obtain ⟨countdown, rfl, hends⟩ | ⟨t', ht', hgoes⟩ := ht.advance htm
      · exact hafter hends.isAt.isBehind (hends.left.trans hleft) (c.silence d) current.dropEvents
      · have hround : Alarmed c.now left (alertRound r t' current) := .round r current hgoes.inOrder (hgoes.left.trans hleft)
        cases tm <;> cases ht' <;> exact ⟨hround, rfl⟩
  | @gap _ t ht hleft =>
    cases hr
    refine Or.inr ?_
    obtain ⟨tm, htm, rfl⟩ := Option.map_eq_some_iff.1 hm
    obtain ⟨countdown, rfl, hends⟩ | ⟨t', ht', hgoes⟩ := ht.advance htm
    · exact ⟨.top r hends.isAt (hends.left.trans hleft), rfl⟩
    · have hgap : Alarmed c.now left (alertGap r t') := .gap r hgoes.inOrder (hgoes.left.trans hleft)
      cases tm <;> cases ht' <;> exact ⟨hgap, rfl⟩

/-- A move of an alert ends it, or takes nothing from what is left of its time. -/
theorem Alarmed.advance (h : Alarmed c.now left a) (hask : c.equipment.notifier.AnswersAtOnce)
    (hm : a.advance c d = some m) : Finishes c d left a m ∨ Alarmed c.now left m.next := by
  have hraised {r : Raised} (hr : a.raised? = some r) : Finishes c d left a m ∨ Alarmed c.now left m.next :=
    (h.advance_raised hr hm).imp_right And.left
  cases h with
  | entering id children hle hleft =>
    cases hm
    exact Or.inr (.announcing id _ children (Countdown.isAt_start _ c.now)
      ((Countdown.left_start hle c.now).trans hleft.symm) (due_ask hask))
  | announcing id alert children hc hleft hdue => exact Or.inr (advance_announcing hc hleft hask hm)
  | top r => exact hraised rfl
  | held r => exact hraised rfl
  | round r => exact hraised rfl
  | gap r => exact hraised rfl

/-- In a round that does not go on, neither does the countdown beside it. -/
theorem advance_of_round_rests {r : Raised} {t : Ticking} {current : Activity}
    (hn : (alertRound r t current).advance c d = none) : t.advance c.now c.signals (r.isDismissed d) = none := by
  simp only [Activity.advance] at hn
  split at hn
  · cases hn
  · split at hn <;> simp only [Option.or_eq_none_iff] at hn
    · exact Option.map_eq_none_iff.1 hn.2
    · exact Option.map_eq_none_iff.1 hn.1

/-- The time that passes while an alert does not go on is taken off, unless the run is paused. -/
theorem Alarmed.pass (h : Alarmed c.now left a) (hn : a.advance c d = none) {ms : Nat}
    (halarms : ∀ t ∈ a.alarms, (c.now.plusMillis ms).nanos ≤ t.nanos) :
    Alarmed (c.now.plusMillis ms) (left - (if c.signals.paused then 0 else ms : Nat)) a := by
  cases h with
  | entering => cases hn
  | announcing id alert children hc hleft hdue =>
    have hcome := NoticePhase.advance_eq_none.1 (Option.map_eq_none_iff.1 hn)
    simp [hdue, Circumstances.hasCome] at hcome
  | top => cases hn
  | @held r countdown hc hnone hleft =>
    have hpaused : c.signals.paused = true := by
      simp only [Activity.advance] at hn
      split at hn
      · cases hn
      · rename_i hheld
        simp only [Bool.or_eq_true, Bool.not_eq_true', not_or, Bool.not_eq_false] at hheld
        exact hheld.1.1
    have hat : countdown.IsAt (c.now.plusMillis ms) := ⟨Or.inl hnone, hc.nonneg, hc.le⟩
    refine .held r hat hnone ?_
    rw [hat.left_eq, ← hleft, hc.left_eq]
    simp [hpaused]
  | @round r t current ht hleft =>
    obtain ⟨hin, hleft'⟩ := ht.pass (advance_of_round_rests hn) fun x hx => halarms x (List.mem_append_left _ hx)
    exact .round r current hin (by rw [hleft', hleft])
  | @gap r t ht hleft =>
    obtain ⟨hin, hleft'⟩ := ht.pass (Option.map_eq_none_iff.1 hn) halarms
    exact .gap r hin (by rw [hleft', hleft])

end Activity

namespace Course

open Activity

/-- Whether a run is at work at a depth. -/
def IsUnder (n : Nat) (w : Course) : Prop := ∃ b, w.run.activity.inner n = some b ∧ b.isDone = false

/-- A course in which the run stays with what it is in at a depth. Anything can befall it. -/
abbrev Stays (n : Nat) : Course → Course → Prop :=
  Relation.ReflTransGen fun w w' => Step (fun _ => True) w w' ∧ w'.IsUnder n

/-- A run that is in an alert step at a depth, of which so many milliseconds are left. -/
structure InAlert (n : Nat) (left : Int) (w : Course) : Prop where
  answers : w.run.equipment.notifier.AnswersAtOnce
  alarmed : ∃ b, w.run.activity.inner n = some b ∧ Alarmed w.run.now left b

/-- How a step of a course ends the alert step that the run is in. -/
structure EndsAlert (n : Nat) (left : Int) (w w' : Course) : Prop where
  cause : w.run.signals.aborted = true ∨
    (∃ r countdown, w.run.activity.inner n = some (.alertTop r countdown) ∧ r.isDismissed w.run.devices = true) ∨ left = 0
  awake : w'.awake = w.awake
  call : w'.run.activity.call? = none
  silent : ∀ p, w'.run.devices.channel.current = some p → p.owner ≠ Solo.owner

variable {n : Nat} {left : Int} {w w' : Course}

theorem InAlert.isUnder (h : w.InAlert n left) : w.IsUnder n := by
  obtain ⟨b, hb, halarmed⟩ := h.alarmed
  exact ⟨b, hb, halarmed.isDone_eq⟩

theorem InAlert.moved (h : w.InAlert n left) {coin : Bool} {m : Move} (hm : w.run.advance coin = some m) :
    (w.moved m).InAlert n left ∨ ((w.moved m).run.activity.inner n = some .done ∧ EndsAlert n left w (w.moved m)) ∨
      (w.moved m).run.activity.inner n = none := by
  obtain ⟨b, hb, halarmed⟩ := h.alarmed
  cases inner_advance hb halarmed.isDone_eq hm with
  | @moves mb hmb hnext hd =>
    rcases Alarmed.advance (c := { w.run.circumstances with coin := coin }) halarmed h.answers hmb with hends | halarmed'
    · refine Or.inr (Or.inl ⟨hnext.trans (congrArg some hends.next), ?_, rfl, ?_, fun p hp => ?_⟩)
      · rcases hends.cause with hcause | ⟨r, countdown, rfl, hcause⟩ | hcause
        · exact Or.inl hcause
        · exact Or.inr (Or.inl ⟨r, countdown, hb, hcause⟩)
        · exact Or.inr (Or.inr hcause)
      · exact (call?_inner hnext).trans (by rw [hends.next]; rfl)
      · have hslot : (w.run.devices.channel.stopOwnedBy Solo.owner).current = some p := by
          rw [← hp]
          show _ = m.devices.channel.current
          rw [hd, hends.devices]
          rfl
        exact Channel.owner_ne_of_stopOwnedBy hslot
    · exact Or.inl ⟨h.answers, mb.next, hnext, halarmed'⟩
  | stays hnext => exact Or.inl ⟨h.answers, b, hnext, halarmed⟩
  | dropped hnext => exact Or.inr (Or.inr hnext)

/-- The time for which a run is awake while it is in an alert step is taken off the time of that. -/
theorem InAlert.passed (h : w.InAlert n left) {ms : Nat} (hw : w.run.Waits)
    (halarms : ∀ t ∈ w.run.activity.alarms, (w.run.now.plusMillis ms).nanos ≤ t.nanos) :
    (w.passed ms).InAlert n (left - (w.waking ms : Nat)) := by
  obtain ⟨b, hb, halarmed⟩ := h.alarmed
  have hdone : w.run.activity.isDone = false := not_isDone_of_inner hb halarmed.isDone_eq
  have hrest : b.advance w.run.circumstances w.run.devices = none := advance_inner_eq_none hb (hw.2 true)
  have hpass := Alarmed.pass (c := w.run.circumstances) halarmed hrest fun t ht => halarms t (alarms_inner hb t ht)
  refine ⟨by rw [w.equipment_passed]; exact h.answers, b, by rw [w.activity_passed]; exact hb, ?_⟩
  rw [w.now_passed, waking_of_not_isDone hdone]
  exact hpass

/-- What a step of a course makes of an alert step that the run is in: the time for which the run is
awake is taken off, or the step comes to its end, or it is given up with what is around it. -/
theorem InAlert.step (h : w.InAlert n left) (hs : Step (fun _ => True) w w') :
    (w.awake ≤ w'.awake ∧ w'.InAlert n (left - (w'.awake - w.awake : Nat))) ∨
      (w'.run.activity.inner n = some .done ∧ EndsAlert n left w w') ∨ w'.run.activity.inner n = none := by
  have hsame : left - (w.awake - w.awake : Nat) = left := by omega
  cases hs with
  | disturb x _ =>
    refine Or.inl ⟨Nat.le_of_eq (w.awake_disturbed x).symm, ?_, ?_⟩
    · rw [w.equipment_disturbed]; exact h.answers
    · rw [w.activity_disturbed, w.now_disturbed, w.awake_disturbed, hsame]; exact h.alarmed
  | move coin hm =>
    rcases h.moved hm with hnext | hends
    · refine Or.inl ⟨Nat.le_refl _, ?_⟩
      show (w.moved _).InAlert n (left - (w.awake - w.awake : Nat))
      rw [hsame]
      exact hnext
    · exact Or.inr hends
  | wake _ =>
    obtain ⟨b, hb, halarmed⟩ := h.alarmed
    refine Or.inl ⟨Nat.le_refl _, h.answers, b.wake, inner_wake hb, ?_⟩
    show Alarmed w.run.now (left - (w.awake - w.awake : Nat)) b.wake
    rw [hsame]
    exact halarmed.wake
  | pass ms _ hw halarms =>
    have hpassed := h.passed hw halarms
    have hwaking : (w.passed ms).awake - w.awake = w.waking ms := by rw [w.awake_passed]; omega
    exact Or.inl ⟨by rw [w.awake_passed]; omega, by rw [hwaking]; exact hpassed⟩

/-- As long as the run stays in it, what is left of an alert step is what is left of its timeout. -/
theorem InAlert.stays (h : w.InAlert n left) (hs : Stays n w w') :
    w.awake ≤ w'.awake ∧ w'.InAlert n (left - (w'.awake - w.awake : Nat)) := by
  induction hs with
  | refl => exact ⟨Nat.le_refl _, by rw [Nat.sub_self]; simpa using h⟩
  | @tail v v' _ hstep ih =>
    obtain ⟨hle, hv⟩ := ih
    obtain ⟨b, hb, hnot⟩ := hstep.2
    rcases hv.step hstep.1 with ⟨hle', hv'⟩ | ⟨hdone, -⟩ | hnone
    · refine ⟨Nat.le_trans hle hle', ?_⟩
      have hsum : left - (v.awake - w.awake : Nat) - (v'.awake - v.awake : Nat) = left - (v'.awake - w.awake : Nat) := by
        omega
      rw [← hsum]
      exact hv'
    · rw [hb] at hdone
      cases hdone
      cases hnot
    · rw [hb] at hnone
      cases hnone

/-- The timeout of an alert takes precedence over all that goes on in it. From the moment at which its
step becomes active, at any depth of a run and whatever befalls that, the run is never awake for longer
than the timeout while the step is under way; and a step that ends without an abort and without being
dismissed ends when the run has been awake for exactly the timeout, with its round given up and no sound
of the run in the slot of the channel. -/
theorem timeout_precedence {w₁ : Course} {id : StepId} {alert : Alert} {children : List StepTimer.Step}
    (h₁ : w₁.run.activity.inner n = some (.entering (.block id (.notifyUntil alert) children)))
    (hask : w₁.run.equipment.notifier.AnswersAtOnce) (hle : (alert.timeout.toNat : Int) ≤ countMax) (h : Stays n w₁ w) :
    w₁.awake ≤ w.awake ∧ w.awake - w₁.awake ≤ alert.timeout.toNat ∧
    ∀ w', Step (fun _ => True) w w' → w'.run.activity.inner n = some .done →
      w.run.signals.aborted = true ∨
      (∃ r countdown, w.run.activity.inner n = some (.alertTop r countdown) ∧ r.isDismissed w.run.devices = true) ∨
      (w'.awake = w₁.awake + alert.timeout.toNat ∧ w'.run.activity.call? = none ∧
        ∀ p, w'.run.devices.channel.current = some p → p.owner ≠ Solo.owner) := by
  have hbegin : w₁.InAlert n alert.timeout.toNat := ⟨hask, _, h₁, .entering id children hle rfl⟩
  obtain ⟨hsince, hw⟩ := hbegin.stays h
  have hnonneg : (0 : Int) ≤ alert.timeout.toNat - (w.awake - w₁.awake : Nat) := by
    obtain ⟨b, -, halarmed⟩ := hw.alarmed
    exact halarmed.nonneg
  refine ⟨hsince, by omega, fun w' hs hdone => ?_⟩
  rcases hw.step hs with ⟨-, hnext⟩ | ⟨-, hends⟩ | hnone
  · obtain ⟨b, hb, hnot⟩ := hnext.isUnder
    rw [hb] at hdone
    cases hdone
    cases hnot
  · rcases hends.cause with hcause | hcause | hcause
    · exact Or.inl hcause
    · exact Or.inr (Or.inl hcause)
    · refine Or.inr (Or.inr ⟨?_, hends.call, hends.silent⟩)
      rw [hends.awake]
      omega
  · rw [hnone] at hdone
    cases hdone

/-- The course after at most so many moves in which the run stays with what it is in at a depth. -/
def stayOn (n : Nat) : Nat → Course → Course
  | 0, w => w
  | k + 1, w => (w.run.advance true).elim w fun m =>
    if (m.next.inner n).any (!·.isDone) then stayOn n k (w.moved m) else w

theorem stays_stayOn (n k : Nat) (w : Course) : Stays n w (w.stayOn n k) := by
  induction k generalizing w with
  | zero => exact .refl
  | succ k ih =>
    unfold stayOn
    cases hm : w.run.advance true with
    | none => exact .refl
    | some m =>
      dsimp only [Option.elim]
      split
      · rename_i hunder
        refine .head ⟨.move true hm, ?_⟩ (ih (w.moved m))
        cases hb : m.next.inner n with
        | none => rw [hb] at hunder; cases hunder
        | some b =>
          rw [hb] at hunder
          exact ⟨b, hb, by simpa using hunder⟩
      · exact .refl

/-- A siren without end that is to stop after a second. -/
def siren : Course :=
  ⟨.ofSteps ⟨fun _ _ => .endless, .off, "siren", fun _ => ⟨0⟩⟩
    [.block "alarm" (.notifyUntil { title := "Alarm", timeoutMs := some 1000, interval := .ofNat 1 }) []], 0, []⟩

/-- The siren has just become active. -/
def sirenEntered : Course := siren.goOn 1

/-- It sounds for a tick and a part of the next one, and is then paused for five seconds. -/
def sirenPaused : Course :=
  (((((sirenEntered.stayOn 1 20).passed 250).stayOn 1 20).passed 100).disturbed (.control .pause)).stayOn 1 20

/-- It sounds on, up to the end of its time. -/
def sirenEnding : Course :=
  (((((((((sirenPaused.passed 5000).disturbed (.control .resume)).stayOn 1 20).passed 250).stayOn 1 20).passed 250).stayOn 1
    20).passed 150).stayOn 1 20)

theorem stays_passed (ms : Nat) (hpos : 0 < ms) (hw : w.run.Waits)
    (halarms : ∀ t ∈ w.run.activity.alarms, (w.run.now.plusMillis ms).nanos ≤ t.nanos) (hu : w.IsUnder n) :
    Stays n w (w.passed ms) :=
  .single ⟨.pass ms hpos hw halarms, by unfold IsUnder; rw [w.activity_passed]; exact hu⟩

theorem stays_disturbed (x : Disturbance) (hu : w.IsUnder n) : Stays n w (w.disturbed x) :=
  .single ⟨.disturb x trivial, by unfold IsUnder; rw [w.activity_disturbed]; exact hu⟩

/-- The run goes on as far as it can, and then time passes. -/
theorem stays_elapsed (k ms : Nat) (hpos : 0 < ms) (hw : (w.stayOn n k).run.Waits)
    (halarms : ∀ t ∈ (w.stayOn n k).run.activity.alarms, ((w.stayOn n k).run.now.plusMillis ms).nanos ≤ t.nanos)
    (hu : (w.stayOn n k).IsUnder n) : Stays n w ((w.stayOn n k).passed ms) :=
  (stays_stayOn n k w).trans (stays_passed ms hpos hw halarms hu)

theorem stays_sirenEnding : Stays 1 sirenEntered sirenEnding := by
  have hpaused : Stays 1 sirenEntered sirenPaused := by
    refine (stays_elapsed 20 250 (by decide) (Solo.waits_of_sides rfl rfl rfl) (by decide) ⟨_, rfl, rfl⟩).trans ?_
    refine (stays_elapsed 20 100 (by decide) (Solo.waits_of_sides rfl rfl rfl) (by decide) ⟨_, rfl, rfl⟩).trans ?_
    exact (stays_disturbed (.control .pause) ⟨_, rfl, rfl⟩).trans (stays_stayOn 1 20 _)
  have hending : Stays 1 sirenPaused sirenEnding := by
    refine (stays_passed 5000 (by decide) (Solo.waits_of_sides rfl rfl rfl) (by decide) ⟨_, rfl, rfl⟩).trans ?_
    refine (stays_disturbed (.control .resume) ⟨_, rfl, rfl⟩).trans ?_
    refine (stays_elapsed 20 250 (by decide) (Solo.waits_of_sides rfl rfl rfl) (by decide) ⟨_, rfl, rfl⟩).trans ?_
    refine (stays_elapsed 20 250 (by decide) (Solo.waits_of_sides rfl rfl rfl) (by decide) ⟨_, rfl, rfl⟩).trans ?_
    refine (stays_elapsed 20 150 (by decide) (Solo.waits_of_sides rfl rfl rfl) (by decide) ⟨_, rfl, rfl⟩).trans ?_
    exact stays_stayOn 1 20 _
  exact hpaused.trans hending

/-- The siren is silent after its second, of which the five seconds of the pause are no part. -/
theorem timeout_precedence_siren :
    sirenEnding.run.now = .ofMillis 6000 ∧ ∃ w', Step (fun _ => True) sirenEnding w' ∧ w'.run.activity.inner 1 = some .done ∧
      w'.awake = sirenEntered.awake + 1000 ∧ ∀ p, w'.run.devices.channel.current = some p → p.owner ≠ Solo.owner := by
  obtain ⟨m, hm, hdone⟩ : ∃ m, sirenEnding.run.advance true = some m ∧ m.next.inner 1 = some .done := ⟨_, rfl, rfl⟩
  have hend : Step (fun _ => True) sirenEnding (sirenEnding.moved m) := .move true hm
  have hentered : sirenEntered.run.activity.inner 1 = some (.entering _) := rfl
  have hprec := timeout_precedence hentered (fun _ => ⟨rfl, rfl⟩) (by decide) stays_sirenEnding
  refine ⟨by decide +kernel, _, hend, hdone, ?_⟩
  rcases hprec.2.2 _ hend hdone with habort | ⟨r, countdown, htop, hdismissed⟩ | ⟨hawake, -, hsilent⟩
  · cases habort
  · cases htop
    cases hdismissed
  · exact ⟨hawake, hsilent⟩

end Course

end StepTimer
