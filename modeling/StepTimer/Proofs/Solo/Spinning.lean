/-
Alerts that never wait. The rounds of an alert without steps and without an interval take no time if its sound is
over as soon as it starts. While it has time left and is not dismissed, such an alert begins one round after the
other at the same instant (`Spins`), and its run with it (`IsSpinning`).
-/
import StepTimer.Proofs.Solo.Span

namespace StepTimer

/-- Whether the rounds of an alert without steps take no time: there is no interval, and its sound is over as
soon as it starts. -/
structure Alert.IsIdle (alert : Alert) (e : Equipment) : Prop where
  interval : alert.intervalMs.toNat = 0
  silent : ∀ n, (e.player n (alert.sound.effectiveUrl e.defaultSound)).takesTime = false

/-- A call that takes no time is over at the instant at which it starts. -/
theorem Call.isOver_of_not_takesTime {player : Player} {n : Nat} {url : String} (h : (player n url).takesTime = false)
    (now : Instant) : (Call.start player n url now).isOver now = true := by
  unfold Call.start
  cases hp : player n url with
  | lasts ms | fails ms =>
    rw [hp] at h
    have hzero : ms = 0 := Nat.eq_zero_of_not_pos (of_decide_eq_false h)
    rw [hzero]
    exact decide_eq_true (Nat.le_of_eq (congrArg Instant.nanos now.plusMillis_zero))
  | endless =>
    rw [hp] at h
    cases h

namespace Activity

/-- An alert without steps whose rounds take no time, with time left at an instant; what it is to hear from the
notifier comes at this instant, too. -/
inductive Spins (e : Equipment) (now : Instant) : Activity → Prop
  | entering (id : StepId) {alert : Alert} (hi : alert.IsIdle e) (hask : e.notifier.AnswersAtOnce)
      (hpos : 0 < alert.timeout.toNat) : Spins e now (entering (.block id (.notifyUntil alert) []))
  | announcing (id : StepId) {alert : Alert} {countdown : Countdown} {phase : NoticePhase} (hi : alert.IsIdle e)
      (hask : phase.isGranted = true → e.notifier.AnswersAtOnce) (hc : 0 < countdown.due now)
      (hdue : phase.isDue now = true) : Spins e now (announcing id alert [] countdown phase)
  | top {r : Raised} {countdown : Countdown} (hi : r.alert.IsIdle e) (hr : r.children = []) (hc : 0 < countdown.due now) :
      Spins e now (alertTop r countdown)
  | round {r : Raised} {t : Ticking} {current : Activity} (hi : r.alert.IsIdle e) (hr : r.children = [])
      (ht : t.lasts now = true) (hcurrent : current = done ∨
        (∃ url, (∀ n, (e.player n url).takesTime = false) ∧ current = sound url false .begin) ∨
          ∃ url call, current = sound url false (.playing call) ∧ call.isOver now = true) :
      Spins e now (alertRound r t current)

namespace Spins

variable {c : Circumstances} {d : Devices} {m : Move} {a : Activity} {e : Equipment} {now : Instant}

theorem isAlert (h : Spins e now a) : a.isAlert = true := by cases h <;> rfl

theorem wake_eq (h : Spins e now a) : a.wake = a := by
  cases h with
  | round _ _ _ hcurrent => rcases hcurrent with rfl | ⟨url, -, rfl⟩ | ⟨url, call, rfl, -⟩ <;> rfl
  | _ => rfl

theorem afterRound {r : Raised} {countdown : Countdown} (hi : r.alert.IsIdle e) (hr : r.children = [])
    (hc : 0 < countdown.due c.now) (d : Devices) (events : List Event) :
    Spins e c.now (r.afterRound countdown c d events).next := by
  unfold Raised.afterRound
  dsimp only
  rw [if_neg (by simp [hi.interval])]
  exact .top hi hr ((countdown.due_settle c.now).symm ▸ hc)

/-- A move of such an alert begins another of its rounds sooner or later, but does not end it. -/
theorem advance (h : Spins c.equipment c.now a) (ha : c.signals.aborted = false) (hp : c.signals.paused = false)
    (hd : a.Unheeded d) (hm : a.advance c d = some m) : Spins c.equipment c.now m.next := by
  have answered {phase : NoticePhase} (hdue : phase.due = some c.now) : phase.isDue c.now = true := by
    simp [NoticePhase.isDue, hdue]
  cases h with
  | @entering id alert hi hask hpos =>
    cases hm
    refine .announcing id hi (fun _ => hask) ?_ (answered (due_ask hask))
    rw [Countdown.due_start, countMax]
    omega
  | @announcing id alert countdown phase hi hask hc hdue =>
    obtain ⟨nm, hnm, rfl⟩ := Option.map_eq_some_iff.1 hm
    cases nm with
    | goes phase' d' =>
      cases phase with
      | asking due permission =>
        simp only [NoticePhase.advance] at hnm
        split at hnm
        · split at hnm <;> cases hnm
          next hgranted =>
            have hask := hask (decide_eq_true hgranted)
            exact .announcing id hi (fun _ => hask) hc (answered (due_present hask))
        · cases hnm
      | presenting due fails =>
        simp only [NoticePhase.advance] at hnm
        split at hnm <;> cases hnm
    | shown notice d' => exact .top hi rfl hc
    | refused d' => exact .top hi rfl hc
  | @top r countdown hi hr hc =>
    cases hm
    unfold advanceAlertTop
    rw [ha, hd r rfl, Countdown.not_expired_of_due hc, hp]
    have hround : r.round c = sound (r.alert.sound.effectiveUrl c.equipment.defaultSound) false .begin := by
      simp [Raised.round, hr]
    exact .round hi hr (Ticking.lasts_start _ (Int.le_refl 0) hc) (Or.inr (Or.inl ⟨_, hi.silent, hround⟩))
  | @round r t current hi hr ht hcurrent =>
    -- the round is over, or its sound goes on, or the countdown beside it does, which has time left
    rcases advance_alertRound hm with ⟨-, rfl⟩ | ⟨m', hm', rfl⟩ | hm
    · exact afterRound hi hr (Ticking.due_pos_of_lasts ht) d []
    · refine .round hi hr ht ?_
      rcases hcurrent with rfl | ⟨url, hsilent, rfl⟩ | ⟨url, call, rfl, hover⟩
      · cases hm'
      · cases hm'
        exact Or.inr (Or.inr ⟨url, _, rfl, Call.isOver_of_not_takesTime (hsilent _) c.now⟩)
      · obtain ⟨how, -, rfl⟩ := Option.map_eq_some_iff.1 hm'
        exact Or.inl rfl
    · obtain ⟨tm, htm, rfl⟩ := Option.map_eq_some_iff.1 hm
      rw [hd r rfl] at htm
      rcases Ticking.advance_due htm with ⟨-, hend⟩ | ⟨t', ht', hfloor, hdue, -⟩
      · rcases hend with habort | hover | hoff
        · rw [ha] at habort; cases habort
        · exact absurd hover (Ticking.not_ended_of_lasts ht)
        · cases hoff
      · have hlasts := Ticking.lasts_of_due ht hfloor hdue
        cases tm <;> cases ht' <;> exact .round hi hr hlasts hcurrent

/-- Such an alert never waits. -/
theorem advance_ne_none (h : Spins c.equipment c.now a) : a.advance c d ≠ none := by
  intro hn
  cases h with
  | entering => cases hn
  | @announcing id _ _ phase hi hask hc hdue =>
    rw [NoticePhase.isDue_eq, NoticePhase.advance_eq_none.1 (Option.map_eq_none_iff.1 hn)] at hdue
    cases hdue
  | top => cases hn
  | @round r t current hi hr ht hcurrent =>
    rcases hcurrent with rfl | ⟨url, hsilent, rfl⟩ | ⟨url, call, rfl, hover⟩
    · cases hn
    · have hrest := advance_inner_eq_none (n := 1) (b := sound url false .begin) rfl hn
      cases hrest
    · have hrest := advance_inner_eq_none (n := 1) (b := sound url false (.playing call)) rfl hn
      have hend := Option.map_eq_none_iff.1 hrest
      unfold Call.end? at hend
      rw [hover] at hend
      cases hcut : d.channel.isCut call.number <;> rw [hcut] at hend <;> cases hend

end Spins

end Activity

namespace Course

open Activity

/-- A run in an alert that spins at an instant. -/
structure IsSpinning (n : Nat) (now : Instant) (w : Course) : Prop where
  orderly : w.Orderly
  paused : w.run.signals.paused = false
  now : w.run.now = now
  spins : ∃ b, w.run.activity.inner n = some b ∧ Spins w.run.equipment w.run.now b ∧ b.Unheeded w.run.devices

variable {w w' : Course} {n : Nat} {now : Instant}

/-- An alert that spins goes on spinning at the same instant, unless it is given up. -/
theorem IsSpinning.step (h : w.IsSpinning n now) (hs : w.Undisturbed w') :
    w'.IsSpinning n now ∨ w'.run.activity.inner n = none ∧ w.run.activity.isInRound n = true := by
  obtain ⟨b, hb, hspins, hd⟩ := h.spins
  -- time cannot pass while the alert has a move, so the step is one of the run at this instant
  have hu := hs.under h.orderly.aborted hb (isDone_of_isAlert hspins.isAlert)
  have hgoes {b' : Activity} (hb' : w'.run.activity.inner n = some b') (hsame : w'.run.now = w.run.now)
      (hspins' : Spins w.run.equipment w.run.now b') : w'.IsSpinning n now := by
    refine ⟨h.orderly.step hs, by rw [hs.signals]; exact h.paused, hsame.trans h.now, b', hb', ?_,
      hu.unheeded h.orderly hd hspins.isAlert hb'⟩
    rw [hs.equipment, hsame]
    exact hspins'
  cases hu with
  | @moves coin mb hmb hnext _ hsame =>
    exact Or.inl (hgoes hnext hsame (Spins.advance (c := { w.run.circumstances with coin := coin }) hspins
      h.orderly.aborted h.paused hd hmb))
  | stays hnext _ hsame => exact Or.inl (hgoes hnext hsame hspins)
  | wakes hnext _ hsame => exact Or.inl (hgoes hnext hsame (hspins.wake_eq.symm ▸ hspins))
  | passes hrest => exact absurd (hrest true) (Spins.advance_ne_none (c := w.run.circumstances) hspins)
  | dropped hnext hround => exact Or.inr ⟨hnext, hround⟩

/-- When all coins fall so, the move of the run is one of the alert, which goes on spinning. -/
theorem IsSpinning.exists_move (h : w.IsSpinning n now) :
    ∃ m, w.run.advance true = some m ∧ (w.moved m).IsSpinning n now := by
  obtain ⟨b, hb, hspins, -⟩ := h.spins
  obtain ⟨mb, hmb⟩ := Option.ne_none_iff_exists'.1
    (Spins.advance_ne_none (c := { w.run.circumstances with coin := true }) (d := w.run.devices) hspins)
  obtain ⟨m, hm, hnext⟩ := advance_inner_first rfl hb hmb
  refine ⟨m, hm, (h.step (.move true hm)).resolve_right ?_⟩
  rintro ⟨hgone, -⟩
  cases hgone.symm.trans hnext

/-- When all coins fall so, an alert that spins does so for ever, whatever is around it. -/
theorem IsSpinning.follow (h : w.IsSpinning n now) (k : Nat) :
    (w.follow (fun _ => none) k).IsSpinning n now ∧ ∃ m, (w.follow (fun _ => none) k).run.advance true = some m ∧
      w.follow (fun _ => none) (k + 1) = (w.follow (fun _ => none) k).moved m := by
  have hgo {w : Course} (h : w.IsSpinning n now) : ∃ m, w.run.advance true = some m ∧ w.proceed = w.moved m ∧
      w.proceed.IsSpinning n now := by
    obtain ⟨m, hm, hnext⟩ := h.exists_move
    have hproceed : w.proceed = w.moved m := by simp [proceed, hm]
    exact ⟨m, hm, hproceed, hproceed ▸ hnext⟩
  induction k with
  | zero =>
    obtain ⟨m, hm, hproceed, -⟩ := hgo h
    exact ⟨h, m, hm, hproceed⟩
  | succ k ih =>
    obtain ⟨-, -, -, hspin⟩ := hgo ih.1
    obtain ⟨m, hm, hproceed, -⟩ := hgo hspin
    exact ⟨hspin, m, hm, hproceed⟩

end Course

end StepTimer
