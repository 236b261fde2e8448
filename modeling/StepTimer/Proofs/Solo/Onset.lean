/-
The onset of an alert. Its time runs from the moment at which its step becomes active, but while its
notification is on its way, and then in its first tick, the countdown is not settled: that tick is as long as
if no time had passed before (`Onset.tickEnd`). When it ends, or is cut short, the time since the beginning is
taken off in one go, and from then on the alert ends when nothing is left (`Nearing`): at once if all the time
has passed by then (`Spent`).
-/
import StepTimer.Proofs.Engine.Lasting
import StepTimer.Proofs.Engine.Notices
import StepTimer.Proofs.Solo.Timeout

namespace StepTimer

/-- The milliseconds that a notifier takes for a notification, from the question for permission on; none if it
does not answer. -/
def Notifier.answerMs (k : Notifier) (calls : Nat) : Option Nat :=
  (k.ask calls).delayMs.bind fun ms =>
    if (k.ask calls).permission = .granted then (k.present (calls + 1)).delayMs.map (ms + ·) else some ms

/-- The beginning of an alert: the instant at which its step became active, the milliseconds it is to take, and
those until its notification is up or could not be shown. -/
structure Onset where
  start : Instant
  total : Nat
  delay : Nat
  le : (total : Int) ≤ countMax

namespace Onset

/-- The countdown of an alert until it is settled for the first time. -/
def countdown (o : Onset) : Countdown := ⟨o.total, some o.start⟩

/-- The end of the first tick. -/
def tickEnd (o : Onset) : Nat := o.delay + min o.total 250

/-- The latest end of an alert that is not paused. -/
def latest (o : Onset) : Nat := max o.total o.tickEnd

variable (o : Onset) {el : Nat}

theorem isBehind (hel : el ≤ o.total) : o.countdown.IsBehind (o.start.plusMillis el) :=
  ⟨Or.inr ⟨o.start, el, rfl, rfl, Int.ofNat_le.2 hel⟩, Int.natCast_nonneg _, o.le⟩

theorem left_countdown : o.countdown.left (o.start.plusMillis el) = o.total - el :=
  Countdown.left_plusMillis rfl el

theorem settle_le (hel : o.total ≤ el) : (o.countdown.settle (o.start.plusMillis el)).remaining ≤ 0 := by
  have hle := o.le
  simp only [countdown, Countdown.settle, Instant.millisSince_plusMillis, countMin, countMax] at hle ⊢
  omega

end Onset

/-! ## Countdowns -/

/-- A countdown in the first tick of an alert. -/
structure FirstTick (o : Onset) (el : Nat) (t : Ticking) : Prop where
  countdown : t.countdown = o.countdown
  floor : t.floor = 0
  pos : 0 < o.total
  place : t.phase = .top ∧ el = o.delay ∨
    t.phase = .asleep (o.start.plusMillis o.tickEnd) ∧ o.delay ≤ el ∧ el ≤ o.tickEnd

namespace FirstTick

variable {o : Onset} {el : Nat} {t : Ticking} {signals : Signals} {m : TickMove}

theorem delay_le (h : FirstTick o el t) : o.delay ≤ el ∧ el ≤ o.tickEnd := by
  unfold Onset.tickEnd
  rcases h.place with ⟨-, rfl⟩ | ⟨-, hplace⟩
  · omega
  · exact hplace

/-- A countdown beside a round that was settled: what is left of it, or that all its time has passed. -/
structure Counted (now : Instant) (left : Int) (t : Ticking) : Prop where
  inOrder : 0 ≤ left → t.InOrder now ∧ t.countdown.left now = left
  spent : left ≤ 0 → t.countdown.remaining ≤ 0
  floor : t.floor = 0
  phase : t.phase = .top ∨ t.phase = .held

/-- The first tick goes on until it ends or the run is paused; then the time since the beginning is taken
off. -/
theorem advance (h : FirstTick o el t) (ha : signals.aborted = false)
    (hm : t.advance (o.start.plusMillis el) signals false = some m) :
    ∃ t', m.ticking? = some t' ∧ (FirstTick o el t' ∧ signals.paused = false ∨
      Counted (o.start.plusMillis el) (o.total - el) t' ∧ (signals.paused = true ∨ el = o.tickEnd)) := by
  have hpos : ¬ t.countdown.remaining ≤ t.floor := by
    have htotal := h.pos
    rw [h.countdown, h.floor]
    simp only [Onset.countdown]
    omega
  -- however the first tick ends, its countdown is settled
  have hcounted (c : Countdown) (phase : TickPhase) (hphase : phase = .top ∨ phase = .held)
      (hrem : c.remaining = (o.countdown.settle (o.start.plusMillis el)).remaining)
      (hanchor : c.anchor = none ∨ phase = .top ∧ c.anchor = some (o.start.plusMillis el)) :
      Counted (o.start.plusMillis el) (o.total - el) { t with countdown := c, phase := phase } := by
    refine ⟨fun hleft => ?_, fun hleft => ?_, h.floor, hphase⟩
    · obtain ⟨hat, hsame, -⟩ := (o.isBehind (show el ≤ o.total by omega)).settle
      rw [hat.left_eq, ← hrem, o.left_countdown] at hsame
      have hat' : c.IsAt (o.start.plusMillis el) :=
        ⟨hanchor.imp_right And.right, hrem ▸ hat.nonneg, hrem ▸ hat.le⟩
      refine ⟨⟨?_, ?_, hat'.le, ?_⟩, hat'.left_eq.trans hsame⟩
      · exact Int.le_of_eq h.floor.symm
      · rw [h.floor]; exact hat'.nonneg
      · rcases hphase with rfl | rfl
        · exact hat'.anchor
        · exact hanchor.resolve_right (by simp)
    · rw [hrem]
      exact o.settle_le (by omega)
  have htick : t.tick.toNat = min o.total 250 := by
    simp only [Ticking.tick, tickMs, h.countdown, h.floor, Onset.countdown]
    omega
  unfold Ticking.advance at hm
  rcases h.place with ⟨hphase, rfl⟩ | ⟨hphase, hplace⟩ <;> rw [hphase] at hm <;> dsimp only at hm
  · rw [if_neg (by simp [ha, hpos])] at hm
    split at hm <;> cases hm <;> rename_i hp
    · refine ⟨_, rfl, Or.inr ⟨hcounted _ .held (Or.inr rfl) ?_ (Or.inl rfl), Or.inl hp⟩⟩
      rw [h.countdown]
      rfl
    · refine ⟨_, rfl, Or.inl ⟨⟨?_, h.floor, h.pos, Or.inr ⟨?_, ?_⟩⟩, by simpa using hp⟩⟩
      · rw [h.countdown]
        rfl
      · rw [htick, o.start.plusMillis_plusMillis]
        rfl
      · unfold Onset.tickEnd
        omega
  · split at hm <;> cases hm
    rename_i hdue
    refine ⟨_, rfl, Or.inr ⟨hcounted _ .top (Or.inl rfl) ?_ (Or.inr ⟨rfl, ?_⟩), ?_⟩⟩
    · rw [h.countdown]
    · rw [h.countdown]
      rfl
    · simp only [ha, Bool.or_false, Bool.or_eq_true, decide_eq_true_eq, Instant.plusMillis_le_iff] at hdue
      exact hdue.symm.imp_right fun hle => Nat.le_antisymm hplace.2 hle

/-- Time passes in the first tick up to its end, unless the run is paused. -/
theorem pass (h : FirstTick o el t) (hn : t.advance (o.start.plusMillis el) signals false = none) {ms : Nat}
    (halarms : ∀ a ∈ t.alarms, ((o.start.plusMillis el).plusMillis ms).nanos ≤ a.nanos) :
    FirstTick o (el + ms) t ∧ signals.paused = false := by
  rcases h.place with ⟨hphase, -⟩ | ⟨hphase, hplace⟩
  · rcases Ticking.rests_cases hn with ⟨hno, -⟩ | ⟨alarm, hno, -, -⟩ <;> rw [hphase] at hno <;> cases hno
  · rcases Ticking.rests_cases hn with ⟨hno, -⟩ | ⟨alarm, -, -, hp⟩
    · rw [hphase] at hno
      cases hno
    · have hle := halarms (o.start.plusMillis o.tickEnd) (by simp [Ticking.alarms, hphase])
      rw [o.start.plusMillis_plusMillis, o.start.plusMillis_le_iff] at hle
      exact ⟨⟨h.countdown, h.floor, h.pos, Or.inr ⟨hphase, by omega, hle⟩⟩, hp⟩

end FirstTick

/-! ## Alerts -/

/-- An announcement goes on when the moment has come that it waits for. -/
theorem NoticePhase.le_of_advance {phase : NoticePhase} {c : Circumstances} {d : Devices} {nm : NoticeMove} {start : Instant}
    {ms el : Nat} (hm : phase.advance c d = some nm) (hdue : phase.due = some (start.plusMillis ms))
    (hnow : c.now = start.plusMillis el) : ms ≤ el := by
  have hcome := (NoticePhase.advance_cases hm).1
  simp only [hdue, Circumstances.hasCome, decide_eq_true_eq, hnow, Instant.plusMillis_le_iff] at hcome
  exact hcome

namespace Activity

/-- Whether an activity is an alert, from when its step becomes active until it ends. -/
def isAlert : Activity → Bool
  | entering (.block _ (.notifyUntil _) _) => true
  | announcing _ _ _ _ _ => true
  | alertTop _ _ => true
  | alertHeld _ _ => true
  | alertRound _ _ _ => true
  | alertGap _ _ => true
  | _ => false

/-- An alert whose time has all passed when it was taken off. -/
inductive Spent : Activity → Prop
  | top (r : Raised) {countdown : Countdown} (hle : countdown.remaining ≤ 0) : Spent (alertTop r countdown)
  | held (r : Raised) {countdown : Countdown} (hle : countdown.remaining ≤ 0) : Spent (alertHeld r countdown)
  | round (r : Raised) {t : Ticking} (current : Activity) (hphase : t.phase = .top ∨ t.phase = .held)
      (hfloor : t.floor = 0) (hle : t.countdown.remaining ≤ 0) : Spent (alertRound r t current)

/-- An alert of which so much is left, now that the time since its beginning was taken off. -/
inductive Nearing (now : Instant) (left : Int) (r : Raised) (a : Activity) : Prop
  | alarmed (h : Alarmed now left a) (hr : a.raised? = some r)
  | spent (hle : left ≤ 0) (h : Spent a) (hr : a.raised? = some r)

variable {o : Onset} {el : Nat} {left : Int} {a : Activity} {c : Circumstances} {d : Devices} {m : Move} {r : Raised}

theorem isAlert_of_raised? (hr : a.raised? = some r) : a.isAlert = true := by cases a <;> first | rfl | cases hr

theorem isDone_of_isAlert (h : a.isAlert = true) : a.isDone = false := by cases a <;> first | rfl | cases h

/-- An alert that is not up yet has no notification. -/
theorem isSome_raised?_or_notices (h : a.isAlert = true) : a.raised?.isSome = true ∨ a.notices = [] := by
  cases a with
  | entering => exact Or.inr rfl
  | announcing => exact Or.inr rfl
  | alertTop => exact Or.inl rfl
  | alertHeld => exact Or.inl rfl
  | alertRound => exact Or.inl rfl
  | alertGap => exact Or.inl rfl
  | _ => cases h

theorem spent_afterRound {countdown : Countdown} (hle : (countdown.settle c.now).remaining ≤ 0) (r : Raised) (d : Devices)
    (events : List Event) : Spent (r.afterRound countdown c d events).next ∧
      (r.afterRound countdown c d events).next.raised? = some r := by
  unfold Raised.afterRound
  dsimp only
  rw [if_neg (by simp [Countdown.expired, hle])]
  exact ⟨.top r hle, rfl⟩

/-- An alert whose time has passed ends when it is not held by a pause. -/
theorem Spent.advance (h : Spent a) (hr : a.raised? = some r) (hm : a.advance c d = some m) :
    m.next = done ∧ m.devices = c.silence d ∨ Spent m.next ∧ m.next.raised? = some r := by
  cases h with
  | @top _ countdown hle =>
    cases hm
    refine Or.inl ?_
    unfold advanceAlertTop
    rw [if_pos (by simp [Countdown.expired, hle])]
    exact ⟨rfl, rfl⟩
  | held _ hle =>
    cases hr
    rw [advance_alertHeld hm]
    exact Or.inr ⟨.top r hle, rfl⟩
  | @round _ t current hphase hfloor hle =>
    cases hr
    refine Or.inr ?_
    have hsettle (countdown : Countdown) (hrem : countdown.remaining ≤ 0) : (countdown.settle c.now).remaining ≤ 0 :=
      of_decide_eq_true (Countdown.expired_settle (decide_eq_true hrem))
    rcases advance_alertRound hm with ⟨-, rfl⟩ | ⟨m', -, rfl⟩ | hm
    · exact spent_afterRound (hsettle _ hle) r d []
    · exact ⟨.round r m'.next hphase hfloor hle, rfl⟩
    · obtain ⟨tm, htm, rfl⟩ := Option.map_eq_some_iff.1 hm
      unfold Ticking.advance at htm
      rcases hphase with hp | hp <;> rw [hp] at htm <;> dsimp only at htm
      · rw [if_pos (by simp [hfloor, hle])] at htm
        cases htm
        exact spent_afterRound (hsettle _ hle) r (c.silence d) current.dropEvents
      · split at htm <;> cases htm
        exact ⟨.round r current (Or.inl rfl) hfloor hle, rfl⟩

theorem Spent.paused_of_rest (h : Spent a) (hn : a.advance c d = none) : c.signals.paused = true := by
  cases h with
  | top => cases hn
  | held r hle =>
    simp only [Activity.advance] at hn
    split at hn
    · cases hn
    · rename_i hheld
      simp only [Bool.or_eq_true, Bool.not_eq_true', not_or, Bool.not_eq_false] at hheld
      exact hheld.1.1
  | @round r t current hphase hfloor hle =>
    rcases Ticking.rests_cases (advance_of_round_rests hn) with ⟨-, hp⟩ | ⟨alarm, hp, -, -⟩
    · exact hp
    · rcases hphase with hno | hno <;> rw [hp] at hno <;> cases hno

namespace Nearing

theorem raised?_eq {now : Instant} (h : Nearing now left r a) : a.raised? = some r := by cases h <;> assumption

/-- A move of an alert that is not dismissed ends it when nothing is left, and takes nothing from that. -/
theorem advance (h : Nearing c.now left r a) (ha : c.signals.aborted = false) (hd : r.isDismissed d = false)
    (hm : a.advance c d = some m) :
    m.next = done ∧ m.devices = c.silence d ∧ left ≤ 0 ∨ Nearing c.now left r m.next := by
  cases h with
  | alarmed h hr =>
    rcases h.advance_raised hr hm with hends | ⟨hnext, hraised⟩
    · refine Or.inl ⟨hends.next, hends.devices, ?_⟩
      rcases hends.cause with hcause | ⟨r', countdown, rfl, hcause⟩ | hcause
      · rw [ha] at hcause
        cases hcause
      · cases hr
        rw [hd] at hcause
        cases hcause
      · exact Int.le_of_eq hcause
    · exact Or.inr (.alarmed hnext hraised)
  | spent hle h hr =>
    rcases h.advance hr hm with ⟨hnext, hdev⟩ | ⟨hnext, hraised⟩
    · exact Or.inl ⟨hnext, hdev, hle⟩
    · exact Or.inr (.spent hle hnext hraised)

/-- The time that passes is taken off what is left, unless the run is paused. -/
theorem pass (h : Nearing c.now left r a) (hn : a.advance c d = none) {ms : Nat}
    (halarms : ∀ t ∈ a.alarms, (c.now.plusMillis ms).nanos ≤ t.nanos) :
    Nearing (c.now.plusMillis ms) (left - (if c.signals.paused then 0 else ms : Nat)) r a ∧
      (c.signals.paused = false → (ms : Int) ≤ left) := by
  cases h with
  | alarmed h hr =>
    have hpass := h.pass hn halarms
    refine ⟨.alarmed hpass hr, fun hp => ?_⟩
    have hnonneg := hpass.nonneg
    rw [hp] at hnonneg
    simp only [Bool.false_eq_true, if_false] at hnonneg
    omega
  | spent hle h hr =>
    have hp := h.paused_of_rest hn
    refine ⟨.spent ?_ h hr, fun hno => ?_⟩
    · rw [hp]
      simpa using hle
    · rw [hp] at hno
      cases hno

/-- The time that passes is taken off when the run is not paused, and more does not pass. -/
theorem pass_going (h : Nearing c.now left r a) (hp : c.signals.paused = false) (hn : a.advance c d = none) {ms : Nat}
    (halarms : ∀ t ∈ a.alarms, (c.now.plusMillis ms).nanos ≤ t.nanos) :
    Nearing (c.now.plusMillis ms) (left - ms) r a ∧ (ms : Int) ≤ left := by
  obtain ⟨hnext, hle⟩ := h.pass hn halarms
  rw [hp] at hnext
  exact ⟨hnext, hle hp⟩

theorem wake {now : Instant} (h : Nearing now left r a) : Nearing now left r a.wake := by
  cases h with
  | alarmed h hr => exact .alarmed h.wake (by cases a <;> exact hr)
  | spent hle h hr =>
    cases h with
    | top _ hrem => exact .spent hle (.top _ hrem) hr
    | held _ hrem => exact .spent hle (.held _ hrem) hr
    | round _ current hphase hfloor hrem => exact .spent hle (.round _ current.wake hphase hfloor hrem) hr

end Nearing

/-! ### The onset of an alert -/

theorem nearing_afterRound (o : Onset) (hnow : c.now = o.start.plusMillis el) (r : Raised) (d : Devices)
    (events : List Event) : Nearing c.now (o.total - el) r (r.afterRound o.countdown c d events).next := by
  by_cases hel : el ≤ o.total
  · have hnext := alarmed_afterRound (c := c) (show o.countdown.IsBehind c.now from hnow ▸ o.isBehind hel) r d events
    rw [hnow, o.left_countdown, ← hnow] at hnext
    refine .alarmed hnext ?_
    obtain ⟨report, -, ⟨t, -, -, he⟩ | ⟨countdown', he⟩⟩ := afterRound_cases r o.countdown c d events <;> rw [he] <;> rfl
  · have hover : (o.countdown.settle c.now).remaining ≤ 0 := by
      rw [hnow]
      exact o.settle_le (by omega)
    obtain ⟨hspent, hr⟩ := spent_afterRound hover r d events
    exact .spent (by omega) hspent hr

/-- A pause before the first round takes the time since the beginning off. -/
theorem nearing_held (o : Onset) (hnow : c.now = o.start.plusMillis el) (r : Raised) :
    Nearing c.now (o.total - el) r (alertHeld r (o.countdown.suspend c.now)) := by
  by_cases hle : el ≤ o.total
  · obtain ⟨hat, hnone, hrem⟩ := (hnow ▸ o.isBehind hle : o.countdown.IsBehind c.now).suspend
    refine .alarmed (.held r hat hnone ?_) rfl
    rw [hat.left_eq, hrem, hnow, o.left_countdown]
  · have hover := o.settle_le (show o.total ≤ el by omega)
    rw [← hnow] at hover
    exact .spent (by omega) (.held r hover) rfl

theorem FirstTick.Counted.nearing {t : Ticking} (h : FirstTick.Counted c.now left t) (r : Raised) (current : Activity) :
    Nearing c.now left r (alertRound r t current) := by
  by_cases hleft : 0 ≤ left
  · obtain ⟨hin, hsame⟩ := h.inOrder hleft
    exact .alarmed (.round r current hin hsame) rfl
  · exact .spent (by omega) (.round r current h.phase h.floor (h.spent (by omega))) rfl

/-- What a move makes of the first tick of an alert: the round moves, or the countdown beside it does; or the
tick is over, because the round is, or the run is paused, or the tick has come to its end. -/
theorem first_advance {t : Ticking} {current : Activity} (h : FirstTick o el t) (hnow : c.now = o.start.plusMillis el)
    (ha : c.signals.aborted = false) (hd : r.isDismissed d = false)
    (hm : (alertRound r t current).advance c d = some m) :
    (∃ m', current.advance c d = some m' ∧ m.next = alertRound r t m'.next ∧ m.devices = m'.devices) ∨
      (∃ t', m.next = alertRound r t' current ∧ FirstTick o el t' ∧ m.devices = d) ∨
      Nearing c.now (o.total - el) r m.next ∧ (current.isDone = true ∨ c.signals.paused = true ∨ el = o.tickEnd) := by
  rcases advance_alertRound hm with ⟨hdone, rfl⟩ | ⟨m', hm', rfl⟩ | hm
  · rw [h.countdown]
    exact Or.inr (Or.inr ⟨nearing_afterRound o hnow r d [], Or.inl hdone⟩)
  · exact Or.inl ⟨m', hm', rfl, rfl⟩
  · obtain ⟨tm, htm, rfl⟩ := Option.map_eq_some_iff.1 hm
    rw [hnow, hd] at htm
    obtain ⟨t', ht', ⟨hfirst, -⟩ | ⟨hcounted, hcause⟩⟩ := h.advance ha htm
    · refine Or.inr (Or.inl ⟨t', ?_, hfirst, ?_⟩) <;> cases tm <;> cases ht' <;> rfl
    · refine Or.inr (Or.inr ⟨?_, Or.inr hcause⟩)
      rw [← hnow] at hcounted
      have hnext := FirstTick.Counted.nearing hcounted r current
      cases tm <;> cases ht' <;> exact hnext

/-- Only a pause keeps an alert in its first tick from waiting for the end of it. -/
theorem first_pass {t : Ticking} {current : Activity} {ms : Nat} (h : FirstTick o el t) (hnow : c.now = o.start.plusMillis el)
    (hd : r.isDismissed d = false) (hn : (alertRound r t current).advance c d = none)
    (halarms : ∀ a ∈ (alertRound r t current).alarms, (c.now.plusMillis ms).nanos ≤ a.nanos) :
    FirstTick o (el + ms) t ∧ c.signals.paused = false := by
  have hrest := advance_of_round_rests hn
  rw [hnow, hd] at hrest
  refine h.pass hrest fun a ha => ?_
  rw [← hnow]
  exact halarms a (List.mem_append_left _ ha)

/-- An alert step whose notification is on its way, or has just come up or been refused. -/
inductive Announces (o : Onset) (k : Notifier) (calls el : Nat) : Activity → Prop
  | entering (id : StepId) {alert : Alert} (children : List Step) (hel : el = 0)
      (htotal : (o.total : Int) = min (alert.timeout.toNat : Int) countMax) (hanswer : k.answerMs calls = some o.delay) :
      Announces o k calls el (entering (.block id (.notifyUntil alert) children))
  | asking (id : StepId) (alert : Alert) (children : List Step) {ms : Nat} {permission : Permission} (hel : el ≤ ms)
      (hle : ms ≤ o.delay)
      (hgranted : permission = .granted → (k.present calls).delayMs.map (ms + ·) = some o.delay)
      (hrefused : permission ≠ .granted → ms = o.delay) :
      Announces o k calls el
        (announcing id alert children o.countdown (.asking (some (o.start.plusMillis ms)) permission))
  | presenting (id : StepId) (alert : Alert) (children : List Step) {fails : Bool} (hel : el ≤ o.delay) :
      Announces o k calls el
        (announcing id alert children o.countdown (.presenting (some (o.start.plusMillis o.delay)) fails))
  | top (r : Raised) (hel : el = o.delay) : Announces o k calls el (alertTop r o.countdown)

namespace Announces

variable {k : Notifier} {calls : Nat}

theorem isAlert (h : Announces o k calls el a) : a.isAlert = true := by cases h <;> rfl

theorem call?_eq (h : Announces o k calls el a) : a.call? = none := by cases h <;> rfl

theorem wake (h : Announces o k calls el a) : Announces o k calls el a.wake := by
  cases h with
  | entering id children hel htotal hanswer => exact .entering id children hel htotal hanswer
  | asking id alert children hel hle hgranted hrefused => exact .asking id alert children hel hle hgranted hrefused
  | presenting id alert children hel => exact .presenting id alert children hel
  | top r hel => exact .top r hel

theorem el_le (h : Announces o k calls el a) : el ≤ o.delay := by
  cases h with
  | entering id children hel => omega
  | asking id alert children hel hle => exact Nat.le_trans hel hle
  | presenting id alert children hel => exact hel
  | top r hel => exact Nat.le_of_eq hel

/-- What a move makes of it: the notification goes on its way; or it is up, and the first round begins, or a
pause holds that, or there is no time for it. -/
theorem advance (h : Announces o c.equipment.notifier d.board.calls el a) (hnow : c.now = o.start.plusMillis el)
    (ha : c.signals.aborted = false) (hd : ∀ r, a.raised? = some r → r.isDismissed d = false)
    (hm : a.advance c d = some m) :
    Announces o c.equipment.notifier m.devices.board.calls el m.next ∨
      (∃ r, a = alertTop r o.countdown ∧ el = o.delay ∧
        ((c.signals.paused = false ∧ m = ⟨alertRound r (.start o.countdown 0 r.reportAs) (r.round c), d, []⟩ ∧
            FirstTick o el (.start o.countdown 0 r.reportAs)) ∨
          (c.signals.paused = true ∧ 0 < o.total ∧ Nearing c.now (o.total - el) r m.next) ∨
          (o.total = 0 ∧ m.next = done ∧ m.devices = c.silence d))) := by
  cases h with
  | @entering id alert children hel htotal hanswer =>
    cases hm
    subst hel
    rw [o.start.plusMillis_zero] at hnow
    obtain ⟨ms, hms, hrest⟩ := Option.bind_eq_some_iff.1 hanswer
    have hnext : (beginStep c d (.block id (.notifyUntil alert) children)).next = announcing id alert children o.countdown
        (.asking (some (o.start.plusMillis ms)) (c.equipment.notifier.ask d.board.calls).permission) := by
      simp [beginStep, beginBlock, Circumstances.ask, Countdown.start, Onset.countdown, hms, hnow, htotal]
    rw [hnext]
    refine Or.inl (.asking id alert children (Nat.zero_le _) ?_ (fun hp => ?_) fun hp => ?_)
    · split at hrest
      · obtain ⟨p, -, hsum⟩ := Option.map_eq_some_iff.1 hrest
        omega
      · cases hrest
        exact Nat.le_refl _
    · rw [if_pos hp] at hrest
      exact hrest
    · rw [if_neg hp] at hrest
      cases hrest
      rfl
  | @asking id alert children ms permission hel hle hgranted hrefused =>
    obtain ⟨nm, hnm, rfl⟩ := Option.map_eq_some_iff.1 hm
    have hms : ms = el := Nat.le_antisymm (NoticePhase.le_of_advance hnm rfl hnow) hel
    subst hms
    simp only [NoticePhase.advance] at hnm
    split at hnm
    · split at hnm <;> cases hnm <;> rename_i hp
      · obtain ⟨p, hpresent, hsum⟩ := Option.map_eq_some_iff.1 (hgranted hp)
        have hnext : (c.present d).1 =
            .presenting (some (o.start.plusMillis o.delay)) (c.equipment.notifier.present d.board.calls).fails := by
          simp [Circumstances.present, hpresent, hnow, o.start.plusMillis_plusMillis, hsum]
        dsimp only
        rw [hnext]
        exact Or.inl (.presenting id alert children hle)
      · exact Or.inl (.top _ (hrefused hp))
    · cases hnm
  | @presenting id alert children fails hel =>
    obtain ⟨nm, hnm, rfl⟩ := Option.map_eq_some_iff.1 hm
    have hcome : o.delay ≤ el := NoticePhase.le_of_advance hnm rfl hnow
    simp only [NoticePhase.advance] at hnm
    split at hnm <;> cases hnm
    exact Or.inl (.top _ (Nat.le_antisymm hel hcome))
  | top r hel =>
    cases hm
    refine Or.inr ⟨r, rfl, hel, ?_⟩
    unfold advanceAlertTop
    rw [ha, hd r rfl]
    by_cases htotal : o.total = 0
    · rw [if_pos (by simp [Countdown.expired, Onset.countdown, htotal])]
      exact Or.inr (Or.inr ⟨htotal, rfl, rfl⟩)
    · rw [if_neg (by simp [Countdown.expired, Onset.countdown]; omega)]
      cases hp : c.signals.paused with
      | false => exact Or.inl ⟨rfl, rfl, rfl, rfl, Nat.pos_of_ne_zero htotal, Or.inl ⟨rfl, hel⟩⟩
      | true => exact Or.inr (Or.inl ⟨rfl, Nat.pos_of_ne_zero htotal, nearing_held o hnow r⟩)

/-- Time passes up to the moment at which the notification is up. -/
theorem pass (h : Announces o c.equipment.notifier d.board.calls el a) (hnow : c.now = o.start.plusMillis el)
    (hn : a.advance c d = none) {ms : Nat} (halarms : ∀ t ∈ a.alarms, (c.now.plusMillis ms).nanos ≤ t.nanos) :
    Announces o c.equipment.notifier d.board.calls (el + ms) a := by
  cases h with
  | entering => cases hn
  | @asking id alert children ms' permission hel hle hgranted hrefused =>
    have hdue := halarms (o.start.plusMillis ms') (by simp [alarms])
    rw [hnow, o.start.plusMillis_plusMillis, o.start.plusMillis_le_iff] at hdue
    exact .asking id alert children hdue hle hgranted hrefused
  | presenting id alert children hel =>
    have hdue := halarms (o.start.plusMillis o.delay) (by simp [alarms])
    rw [hnow, o.start.plusMillis_plusMillis, o.start.plusMillis_le_iff] at hdue
    exact .presenting id alert children hdue
  | top => cases hn

end Announces

end Activity

end StepTimer
