/-
How long an alert takes. From its onset on, an alert that is neither paused nor dismissed is on its way to
its end: it is being announced, or in its first tick, or what is left of it is known (`Stage`). It ends when its
time is over and its notification is up, at the latest at the end of its first tick (`InTime`); so a run that
stays in it for ever rings on.
-/
import StepTimer.Proofs.Solo.Onset
import StepTimer.Proofs.Solo.Stall

namespace StepTimer

namespace Activity

variable {c : Circumstances} {d : Devices} {m : Move} {a : Activity} {r : Raised}

theorem raised?_wake (a : Activity) : a.wake.raised? = a.raised? := by cases a <;> rfl

theorem mem_notices_of_raised? {n : Nat} (hr : a.raised? = some r) (hn : r.notice = some n) : n ∈ a.notices := by
  cases a with
  | alertTop r countdown => cases hr; simp [notices, hn]
  | alertHeld r countdown => cases hr; simp [notices, hn]
  | alertRound r t current => cases hr; simp [notices, hn]
  | alertGap r t => cases hr; simp [notices, hn]
  | _ => cases hr

/-- A move of an alert that is up stays in it, or ends it. -/
theorem advance_raised (hr : a.raised? = some r) (hm : a.advance c d = some m) :
    m.next.raised? = some r ∨ (∃ countdown, a = alertTop r countdown) ∧ m = r.finish c d := by
  have hafter (countdown : Countdown) (d : Devices) (events : List Event) :
      (r.afterRound countdown c d events).next.raised? = some r := by
    obtain ⟨report, -, ⟨t, -, -, he⟩ | ⟨countdown', he⟩⟩ := afterRound_cases r countdown c d events <;> rw [he] <;> rfl
  cases a with
  | alertTop _ countdown =>
    cases hr
    cases hm
    rcases alertTop_cases r countdown c d with he | ⟨-, ⟨countdown', he⟩ | ⟨t, -, he⟩⟩ <;> rw [he]
    · exact Or.inr ⟨⟨countdown, rfl⟩, rfl⟩
    · exact Or.inl rfl
    · exact Or.inl rfl
  | alertHeld _ countdown =>
    cases hr
    rw [advance_alertHeld hm]
    exact Or.inl rfl
  | alertRound _ t current =>
    cases hr
    rcases advance_alertRound hm with ⟨-, rfl⟩ | ⟨m', -, rfl⟩ | hm
    · exact Or.inl (hafter _ _ _)
    · exact Or.inl rfl
    · rcases beside_cases hm with ⟨countdown, rfl⟩ | ⟨tm, t', -, -, hnext, -⟩
      · exact Or.inl (hafter _ _ _)
      · rw [hnext]
        exact Or.inl rfl
  | alertGap _ t =>
    cases hr
    obtain ⟨-, ⟨countdown, hnext, -⟩ | ⟨tm, t', -, -, hnext, -⟩⟩ := advance_alertGap hm <;> rw [hnext] <;> exact Or.inl rfl
  | _ => cases hr

/-- Whether the alert that an activity is in is not dismissed. -/
def Unheeded (d : Devices) (a : Activity) : Prop := ∀ r, a.raised? = some r → r.isDismissed d = false

/-- An alert that is not dismissed is not by a move of its run, nor is one whose notification comes up. -/
theorem Unheeded.advance (ha : a.Unheeded d) (halert : a.isAlert = true)
    (hshown : ∀ n ∈ d.board.dismissed, n < d.board.shown) (hm : a.advance c d = some m) : m.next.Unheeded m.devices := by
  intro r hr
  rcases isSome_raised?_or_notices halert with hraised | hnone
  · obtain ⟨r₀, hr₀⟩ := Option.isSome_iff_exists.1 hraised
    obtain rfl : r₀ = r := by
      rcases advance_raised hr₀ hm with hnext | ⟨-, rfl⟩
      · exact Option.some.inj (hnext.symm.trans hr)
      · cases hr
    exact (isDismissed_advance hm r₀).trans (ha r₀ hr₀)
  · rw [isDismissed_advance hm]
    unfold Raised.isDismissed NoticeBoard.isDismissed
    cases hn : r.notice with
    | none => rfl
    | some n =>
      refine decide_eq_false fun hmem => ?_
      rcases (notices_advance hm).added n (mem_notices_of_raised? hr hn) with hold | ⟨hnew, -⟩
      · rw [hnone] at hold
        cases hold
      · exact absurd (hshown n hmem) (Nat.not_lt.2 hnew)

end Activity

/-- The milliseconds that an alert is to take: its timeout, as far as it is counted. -/
def Alert.totalMs (alert : Alert) : Nat := min alert.timeout.toNat countMax.toNat

theorem Alert.totalMs_eq {alert : Alert} (hle : (alert.timeout.toNat : Int) ≤ countMax) :
    alert.totalMs = alert.timeout.toNat := by
  unfold totalMs
  simp only [countMax] at hle ⊢
  omega

/-- The onset of an alert whose step becomes active at an instant, with a notification that takes so long. -/
def Alert.onset (alert : Alert) (start : Instant) (delay : Nat) : Onset :=
  ⟨start, alert.totalMs, delay, by simp only [totalMs, countMax]; omega⟩

namespace Course

open Activity

/-- How far a run is in an alert step that has been active for so many milliseconds, and was not held up. -/
inductive Stage (o : Onset) (el : Nat) (w : Course) : Activity → Prop
  | announces {b : Activity} (h : Announces o w.run.equipment.notifier w.run.devices.board.calls el b) : Stage o el w b
  | first (r : Raised) {t : Ticking} (current : Activity) (h : FirstTick o el t) : Stage o el w (alertRound r t current)
  | nearing {b : Activity} (r : Raised) {left : Int} (h : Nearing w.run.now left r b) (hdelay : o.delay ≤ el)
      (htotal : o.total ≤ el + left.toNat) (hlatest : el + left.toNat ≤ o.latest) : Stage o el w b

variable {o : Onset} {n el : Nat} {w w' : Course} {b : Activity} {h : Hearing}

namespace Stage

theorem isAlert (hs : Stage o el w b) : b.isAlert = true := by
  cases hs with
  | announces h => exact h.isAlert
  | first r current h => rfl
  | nearing r h => exact isAlert_of_raised? h.raised?_eq

theorem el_le (hs : Stage o el w b) : el ≤ o.latest := by
  cases hs with
  | announces h =>
    have hle := h.el_le
    unfold Onset.latest Onset.tickEnd
    omega
  | first r current h => exact Nat.le_trans h.delay_le.2 (Nat.le_max_right _ _)
  | nearing r h _ _ hlatest => omega

/-- A move of an alert that is neither paused nor dismissed brings it on its way, or ends it. -/
theorem advance {coin : Bool} {m : Move} (hs : Stage o el w b) (hnow : w.run.now = o.start.plusMillis el)
    (ha : w.run.signals.aborted = false) (hp : w.run.signals.paused = false) (hd : b.Unheeded w.run.devices)
    (hm : b.advance { w.run.circumstances with coin := coin } w.run.devices = some m)
    (hdev : w'.run.devices = m.devices) (he : w'.run.equipment = w.run.equipment) (hnow' : w'.run.now = w.run.now) :
    Stage o el w' m.next ∨ m.next = done ∧ max o.total o.delay ≤ el ∧ el ≤ o.latest := by
  cases hs with
  | announces h =>
    rcases Announces.advance (c := { w.run.circumstances with coin := coin }) h hnow ha hd hm with
      hnext | ⟨r, -, rfl, ⟨-, rfl, hfirst⟩ | ⟨hpaused, -⟩ | ⟨htotal, hnext, -⟩⟩
    · refine Or.inl (.announces ?_)
      rw [he, hdev]
      exact hnext
    · exact Or.inl (.first r _ hfirst)
    · have hno : w.run.signals.paused = true := hpaused
      rw [hp] at hno
      cases hno
    · refine Or.inr ⟨hnext, ?_⟩
      unfold Onset.latest Onset.tickEnd
      omega
  | first r current h =>
    have hplace := h.delay_le
    rcases first_advance (c := { w.run.circumstances with coin := coin }) h hnow ha (hd r rfl) hm with
      ⟨m', -, hnext, -⟩ | ⟨t', hnext, hfirst, -⟩ | ⟨hnext, -⟩
    · rw [hnext]
      exact Or.inl (.first r m'.next h)
    · rw [hnext]
      exact Or.inl (.first r current hfirst)
    · refine Or.inl (.nearing r (by rw [hnow']; exact hnext) hplace.1 (by omega) ?_)
      unfold Onset.latest
      omega
  | @nearing _ r left h hdelay htotal hlatest =>
    rcases Nearing.advance (c := { w.run.circumstances with coin := coin }) h ha (hd r h.raised?_eq) hm with
      ⟨hnext, -, hle⟩ | hnext
    · exact Or.inr ⟨hnext, by omega, by omega⟩
    · exact Or.inl (.nearing r (by rw [hnow']; exact hnext) hdelay htotal hlatest)

theorem stay (hs : Stage o el w b) (hdev : w'.run.devices = w.run.devices) (he : w'.run.equipment = w.run.equipment)
    (hnow : w'.run.now = w.run.now) : Stage o el w' b := by
  cases hs with
  | announces h => exact .announces (by rw [he, hdev]; exact h)
  | first r current h => exact .first r current h
  | nearing r h hdelay htotal hlatest => exact .nearing r (hnow ▸ h) hdelay htotal hlatest

theorem wake (hs : Stage o el w b) : Stage o el w b.wake := by
  cases hs with
  | announces h => exact .announces h.wake
  | first r current h => exact .first r current.wake h
  | nearing r h hdelay htotal hlatest => exact .nearing r h.wake hdelay htotal hlatest

/-- Time that passes while an alert is not paused brings it on its way. -/
theorem pass {ms : Nat} (hs : Stage o el w b) (hnow : w.run.now = o.start.plusMillis el)
    (hp : w.run.signals.paused = false) (hd : b.Unheeded w.run.devices) (hn : b.advance w.run.circumstances w.run.devices = none)
    (halarms : ∀ t ∈ b.alarms, (w.run.now.plusMillis ms).nanos ≤ t.nanos) (hdev : w'.run.devices = w.run.devices)
    (he : w'.run.equipment = w.run.equipment) (hnow' : w'.run.now = w.run.now.plusMillis ms) :
    Stage o (el + ms) w' b := by
  cases hs with
  | announces h =>
    refine .announces ?_
    rw [he, hdev]
    exact Announces.pass (c := w.run.circumstances) h hnow hn halarms
  | first r current h => exact .first r current (first_pass (c := w.run.circumstances) h hnow (hd r rfl) hn halarms).1
  | nearing r h hdelay htotal hlatest =>
    obtain ⟨hnext, hle⟩ := Nearing.pass_going (c := w.run.circumstances) h hp hn halarms
    exact .nearing r (hnow' ▸ hnext) (by omega) (by omega) (by omega)

end Stage

/-- A run that is in something that nothing holds up: it is not aborted, paused or dismissed. -/
structure Unhindered (n : Nat) (b : Activity) (w : Course) : Prop where
  inner : w.run.activity.inner n = some b
  aborted : w.run.signals.aborted = false
  paused : w.run.signals.paused = false
  unheeded : b.Unheeded w.run.devices

/-- A run that is in an alert step which has been active for so many milliseconds, with nothing that holds it
up. -/
structure InTime (o : Onset) (n el : Nat) (b : Activity) (w : Course) : Prop extends Unhindered n b w where
  now : w.run.now = o.start.plusMillis el
  stage : Stage o el w b

/-- An alert whose step has just become active is in time. -/
theorem inTime_entering {id : StepId} {alert : Alert} {children : List StepTimer.Step} {delay : Nat}
    (hb : w.run.activity.inner n = some (.entering (.block id (.notifyUntil alert) children))) (ho : w.Orderly)
    (hp : w.run.signals.paused = false)
    (hanswer : w.run.equipment.notifier.answerMs w.run.devices.board.calls = some delay) :
    InTime (alert.onset w.run.now delay) n 0 (.entering (.block id (.notifyUntil alert) children)) w := by
  refine ⟨⟨hb, ho.aborted, hp, nofun⟩, w.run.now.plusMillis_zero.symm, .announces (.entering id children rfl ?_ hanswer)⟩
  simp only [Alert.onset, Alert.totalMs, countMax]
  omega

/-- What is known of an activity under way for so many milliseconds, when that is kept by its moves, its turns
and the time that passes, is known of it after a step of the run; or that ends it, or gives it up with the
round that it is in. -/
theorem UnderStep.timed {S : Nat → Activity → Prop} {Q : Nat → Prop} {start : Instant} (hu : UnderStep n b w w')
    (hnow : w.run.now = start.plusMillis el)
    (hmove : ∀ coin m, b.advance { w.run.circumstances with coin := coin } w.run.devices = some m →
      w'.run.devices = m.devices → w'.run.now = w.run.now → S el m.next ∨ m.next = .done ∧ Q el)
    (hstay : w'.run.devices = w.run.devices → w'.run.now = w.run.now → S el b ∧ S el b.wake)
    (hpass : ∀ ms, b.advance w.run.circumstances w.run.devices = none →
      (∀ t ∈ b.alarms, (w.run.now.plusMillis ms).nanos ≤ t.nanos) → w'.run.devices = w.run.devices →
        w'.run.now = w.run.now.plusMillis ms → S (el + ms) b) :
    (∃ el' b', w'.run.now = start.plusMillis el' ∧ w'.run.activity.inner n = some b' ∧ S el' b') ∨
      (w'.run.activity.inner n = some .done ∧ ∃ e, w'.run.now = start.plusMillis e ∧ Q e) ∨
        w'.run.activity.inner n = none ∧ w.run.activity.isInRound n = true := by
  cases hu with
  | moves hmb hnext hd hsame =>
    rcases hmove _ _ hmb hd hsame with hS | ⟨hdone, hQ⟩
    · exact Or.inl ⟨el, _, hsame.trans hnow, hnext, hS⟩
    · exact Or.inr (Or.inl ⟨hnext.trans (congrArg some hdone), el, hsame.trans hnow, hQ⟩)
  | stays hnext hd hsame => exact Or.inl ⟨el, b, hsame.trans hnow, hnext, (hstay hd hsame).1⟩
  | wakes hnext hd hsame => exact Or.inl ⟨el, _, hsame.trans hnow, hnext, (hstay hd hsame).2⟩
  | @passes ms hrest halarms hnext hd hpassed =>
    refine Or.inl ⟨el + ms, b, ?_, hnext, hpass ms (hrest true) halarms hd hpassed⟩
    rw [hpassed, hnow, start.plusMillis_plusMillis]
  | dropped hnext hround => exact Or.inr (Or.inr ⟨hnext, hround⟩)

/-- What a step of a run makes of an alert that it is in and that nothing holds up: it is on its way, or ends in
time, or is given up with the round that it is in. -/
theorem InTime.step (hi : InTime o n el b w) (hu : UnderStep n b w w') (he : w'.run.equipment = w.run.equipment) :
    (∃ el' b', w'.run.now = o.start.plusMillis el' ∧ w'.run.activity.inner n = some b' ∧ Stage o el' w' b') ∨
      (w'.run.activity.inner n = some .done ∧ ∃ e, w'.run.now = o.start.plusMillis e ∧ max o.total o.delay ≤ e ∧ e ≤ o.latest) ∨
        w'.run.activity.inner n = none ∧ w.run.activity.isInRound n = true :=
  hu.timed (S := fun el b => Stage o el w' b) hi.now
    (fun _ _ hm hd hsame => hi.stage.advance hi.now hi.aborted hi.paused hi.unheeded hm hd he hsame)
    (fun hd hsame => ⟨hi.stage.stay hd he hsame, (hi.stage.stay hd he hsame).wake⟩)
    fun _ hrest halarms hd hpassed => hi.stage.pass hi.now hi.paused hi.unheeded hrest halarms hd he hpassed

theorem UnderStep.unheeded {b' : Activity} (hu : UnderStep n b w w') (ho : w.Orderly) (hd : b.Unheeded w.run.devices)
    (halert : b.isAlert = true) (hb' : w'.run.activity.inner n = some b') : b'.Unheeded w'.run.devices := by
  cases hu with
  | moves hmb hnext hdev =>
    cases hnext.symm.trans hb'
    rw [hdev]
    exact hd.advance halert ho.shown hmb
  | stays hnext hdev =>
    cases hnext.symm.trans hb'
    rw [hdev]
    exact hd
  | wakes hnext hdev =>
    cases hnext.symm.trans hb'
    rw [hdev]
    exact fun r hr => hd r (raised?_wake b ▸ hr)
  | passes _ _ hnext hdev =>
    cases hnext.symm.trans hb'
    rw [hdev]
    exact hd
  | dropped hnext =>
    rw [hnext] at hb'
    cases hb'

/-- What stays under way stays in the rounds that it is in. -/
theorem UnderStep.isInRound {b' : Activity} (hu : UnderStep n b w w') (hb' : w'.run.activity.inner n = some b') :
    w'.run.activity.isInRound n = w.run.activity.isInRound n := by
  cases hu with
  | moves _ _ _ _ hround => exact hround
  | stays _ _ _ hround => exact hround
  | wakes _ _ _ hround => exact hround
  | passes _ _ _ _ _ hround => exact hround
  | dropped hnext =>
    rw [hnext] at hb'
    cases hb'

/-- What nothing disturbs and nothing holds up is not held up later on. -/
theorem Unhindered.undisturbed {b' : Activity} (hi : w.Unhindered n b) (ho : w.Orderly) (hs : w.Undisturbed w')
    (halert : b.isAlert = true) (hb' : w'.run.activity.inner n = some b') : w'.Unhindered n b' :=
  ⟨hb', by rw [hs.signals]; exact hi.aborted, by rw [hs.signals]; exact hi.paused,
    (hs.under hi.aborted hi.inner (isDone_of_isAlert halert)).unheeded ho hi.unheeded halert hb'⟩

/-- An alert that nothing disturbs stays in time, or ends in time, or is given up with the round that it is in. -/
theorem InTime.undisturbed (hi : InTime o n el b w) (ho : w.Orderly) (hs : w.Undisturbed w') :
    ((∃ el' b', InTime o n el' b' w') ∧ w'.run.activity.isInRound n = w.run.activity.isInRound n) ∨
      (w'.run.activity.inner n = some .done ∧ ∃ e, w'.run.now = o.start.plusMillis e ∧ max o.total o.delay ≤ e ∧ e ≤ o.latest) ∨
        w'.run.activity.inner n = none ∧ w.run.activity.isInRound n = true := by
  have hu := hs.under hi.aborted hi.inner (isDone_of_isAlert hi.stage.isAlert)
  refine (hi.step hu hs.equipment).imp_left ?_
  rintro ⟨el', b', hnow, hb', hstage⟩
  exact ⟨⟨el', b', hi.toUnhindered.undisturbed ho hs hi.stage.isAlert hb', hnow, hstage⟩, hu.isInRound hb'⟩

/-! ## Whole runs -/

/-- What a run is in at a depth comes to its end after so many milliseconds. -/
def EndsAfter (n : Nat) (f : Nat → Course) (e : Nat) : Prop :=
  ∃ k, (∀ j, j ≤ k → (f j).IsUnder n) ∧ (f (k + 1)).run.activity.inner n = some .done ∧
    (f (k + 1)).run.now = (f 0).run.now.plusMillis e

/-- What a run is in at a depth is given up with a round that it is in. -/
def GivesUp (n : Nat) (f : Nat → Course) : Prop :=
  ∃ k, (∀ j, j ≤ k → (f j).IsUnder n) ∧ (f (k + 1)).run.activity.inner n = none ∧
    (f 0).run.activity.isInRound n = true

/-- What holds at the beginning holds all along, or up to a last step. -/
theorem all_or_last {P : Nat → Prop} (hzero : P 0) : (∀ k, P k) ∨ ∃ k, (∀ j, j ≤ k → P j) ∧ ¬ P (k + 1) := by
  by_cases hall : ∀ k, P k
  · exact Or.inl hall
  · refine Or.inr (Classical.byContradiction fun hno => hall fun k => ?_)
    -- no step is the last, so it holds up to every one
    have hupto : ∀ k j, j ≤ k → P j := by
      intro k
      induction k with
      | zero => intro j hj; cases Nat.le_zero.1 hj; exact hzero
      | succ k ih =>
        have hnext : P (k + 1) := Classical.byContradiction fun hlast => hno ⟨k, ih, hlast⟩
        intro j hj
        rcases Nat.le_succ_iff.1 hj with hj | rfl
        · exact ih j hj
        · exact hnext
    exact hupto k k (Nat.le_refl k)

/-- What each step of a run keeps under way in the rounds that it is in, or ends, or gives up with one of them, is
so kept for ever, or comes to that end, or is given up. -/
theorem stays_or_ends {f : Nat → Course} {P : Nat → Prop} {Q : Course → Prop} (hzero : P 0)
    (hunder : ∀ k, P k → (f k).IsUnder n)
    (hstep : ∀ k, P k → (P (k + 1) ∧ (f (k + 1)).run.activity.isInRound n = (f k).run.activity.isInRound n) ∨
      ((f (k + 1)).run.activity.inner n = some .done ∧ Q (f (k + 1))) ∨
      (f (k + 1)).run.activity.inner n = none ∧ (f k).run.activity.isInRound n = true) :
    (∀ k, P k) ∨ (∃ k, (∀ j, j ≤ k → (f j).IsUnder n) ∧ (f (k + 1)).run.activity.inner n = some .done ∧ Q (f (k + 1))) ∨
      GivesUp n f := by
  rcases all_or_last (P := fun k => P k ∧ (f k).run.activity.isInRound n = (f 0).run.activity.isInRound n) ⟨hzero, rfl⟩ with
    hall | ⟨k, hupto, hlast⟩
  · exact Or.inl fun k => (hall k).1
  · obtain ⟨hk, hround⟩ := hupto k (Nat.le_refl k)
    have hbefore (j : Nat) (hj : j ≤ k) : (f j).IsUnder n := hunder j (hupto j hj).1
    refine Or.inr ?_
    rcases hstep k hk with ⟨hnext, hsame⟩ | ⟨hdone, hQ⟩ | ⟨hnone, hin⟩
    · exact absurd ⟨hnext, hsame.trans hround⟩ hlast
    · exact Or.inl ⟨k, hbefore, hdone, hQ⟩
    · exact Or.inr ⟨k, hbefore, hnone, hround ▸ hin⟩

theorem InTime.isUnder (hi : InTime o n el b w) : w.IsUnder n := ⟨b, hi.inner, isDone_of_isAlert hi.stage.isAlert⟩

/-- An alert that nothing disturbs ends in time, or is given up with a round that it is in, or rings on. -/
theorem ends_or_ringsOn {f : Nat → Course} (hf : ∀ k, (f k).Undisturbed (f (k + 1))) (hi : InTime o n el b (f 0))
    (ho : (f 0).Orderly) (hh : h.IsTrue (f 0).run.equipment)
    (hloops : b.EachBlock fun frame _ => frame ≠ .loop .infinite) :
    (∃ k, (∀ j, j ≤ k → (f j).IsUnder n) ∧ (f (k + 1)).run.activity.inner n = some .done ∧
        ∃ e, (f (k + 1)).run.now = o.start.plusMillis e ∧ max o.total o.delay ≤ e ∧ e ≤ o.latest) ∨
      GivesUp n f ∨ RingsOn n h f := by
  have horderly := orderly_of_undisturbed hf ho
  rcases stays_or_ends (f := f) (P := fun k => ∃ el b, InTime o n el b (f k))
      (Q := fun w => ∃ e, w.run.now = o.start.plusMillis e ∧ max o.total o.delay ≤ e ∧ e ≤ o.latest) ⟨el, b, hi⟩
      (fun k ⟨el, b, hi⟩ => hi.isUnder) (fun k ⟨el, b, hi⟩ => hi.undisturbed (horderly k) (hf k)) with hall | hends | hgives
  · refine Or.inr (Or.inr (ringsOn_of_bound hf ho hh ⟨b, hi.inner, hloops⟩ (fun k => ?_)
      (o.start.plusMillis o.latest).nanos fun k => ?_)) <;> obtain ⟨el, b, hi⟩ := hall k
    · exact hi.isUnder
    · rw [hi.now, o.start.plusMillis_le_iff]
      exact hi.stage.el_le
  · exact Or.inl hends
  · exact Or.inr (Or.inl hgives)

end Course

end StepTimer
