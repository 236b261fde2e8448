/-
An alert without steps that nothing holds up. It plays its sound again and again, and the end of the sound, the end
of its interval and the ticks of its countdown fall as they may; but the time passed is taken off after each of them,
so nothing drifts: each sound starts a sound and an interval after the one before it, as long as there is time left,
and one that is playing when the time is over is cut (`Cadence.Rings`). How far the alert is in that, from its
step's beginning on, is `Chimes`.
-/
import StepTimer.Proofs.Engine.Heard
import StepTimer.Proofs.Solo.Span

namespace StepTimer

/-- What is heard of some events at an instant. -/
def Instant.heard (now : Instant) (events : List Event) : List (Nat × Event) :=
  events.filterMap fun e => if e.isHeard then some (now.millis, e) else none

theorem Instant.heard_eq_nil {now : Instant} {events : List Event} (h : ∀ e ∈ events, e.isHeard = false) :
    now.heard events = [] := by
  refine List.filterMap_eq_nil_iff.2 fun e he => ?_
  rw [h e he]
  rfl

theorem Instant.heard_singleton {e : Event} (he : e.isHeard = true) (now : Instant) : now.heard [e] = [(now.millis, e)] := by
  rw [heard, List.filterMap_cons, he]
  rfl

/-! ## The times of the sounds -/

/-- What is given of an alert without steps: its sound and how long that lasts, when its step becomes active, its
interval and its timeout, in milliseconds. -/
structure Cadence where
  url : String
  lasts : Nat
  start : Instant
  interval : Nat
  total : Nat

namespace Cadence

/-- From the start of one sound to that of the next. -/
def period (q : Cadence) : Nat := q.lasts + q.interval

theorem succ_mul_period (q : Cadence) (k : Nat) : (k + 1) * q.period = k * q.period + q.lasts + q.interval := by
  rw [Nat.succ_mul, period, Nat.add_assoc]

/-- What is heard of the start of a sound, counted from zero. -/
def starts (q : Cadence) (k : Nat) : Nat × Event := (q.start.millis + k * q.period, .play q.url)

/-- What is heard of some sounds in a row: each starts on time, and before the time is over, and comes to its end if
that is in time, or is cut when the time is over. -/
inductive Rings (q : Cadence) : Nat → List (Nat × Event) → Prop
  | none : Rings q 0 []
  | next {k : Nat} {sounds : List (Nat × Event)} {last : Event} (h : Rings q k sounds) (hk : k * q.period < q.total)
      (hlast : last = .finish q.url ∧ k * q.period + q.lasts ≤ q.total ∨
        last = .cut q.url ∧ q.total ≤ k * q.period + q.lasts) :
      Rings q (k + 1) (sounds ++ [q.starts k, (q.start.millis + min (k * q.period + q.lasts) q.total, last)])

/-- What is heard of an alert up to some moment: some sounds in a row, and perhaps the start of the next one. -/
def Sounds (q : Cadence) (sounds : List (Nat × Event)) : Prop :=
  ∃ k rung, q.Rings k rung ∧ (sounds = rung ∨ sounds = rung ++ [q.starts k] ∧ k * q.period < q.total)

variable {q : Cadence} {k : Nat} {sounds : List (Nat × Event)}

theorem Rings.finish (h : q.Rings k sounds) (hk : k * q.period < q.total) (hle : k * q.period + q.lasts ≤ q.total) :
    q.Rings (k + 1) (sounds ++ [q.starts k] ++ [(q.start.millis + (k * q.period + q.lasts), .finish q.url)]) := by
  have hnext := h.next hk (Or.inl ⟨rfl, hle⟩)
  rw [Nat.min_eq_left hle] at hnext
  simpa using hnext

theorem Rings.cut (h : q.Rings k sounds) (hk : k * q.period < q.total) (hle : q.total ≤ k * q.period + q.lasts) :
    q.Rings (k + 1) (sounds ++ [q.starts k] ++ [(q.start.millis + q.total, .cut q.url)]) := by
  have hnext := h.next hk (Or.inr ⟨rfl, hle⟩)
  rw [Nat.min_eq_right hle] at hnext
  simpa using hnext

/-- When the time is over there were just the sounds that start before that. -/
theorem Rings.lt_iff (h : q.Rings k sounds) (hall : q.total ≤ k * q.period) (j : Nat) : j < k ↔ j * q.period < q.total := by
  constructor
  · intro hj
    cases h with
    | none => exact absurd hj (Nat.not_lt_zero j)
    | next _ hk => exact Nat.lt_of_le_of_lt (Nat.mul_le_mul_right _ (Nat.le_of_lt_succ hj)) hk
  · intro hj
    refine Nat.lt_of_not_le fun hle => ?_
    have hmul := Nat.mul_le_mul_right q.period hle
    omega

/-- Whether this is what is given of an alert, with some equipment. -/
structure IsOf (q : Cadence) (alert : Alert) (e : Equipment) : Prop where
  url : alert.sound.effectiveUrl e.defaultSound = q.url
  lasts : ∀ k, e.player k q.url = .lasts q.lasts
  interval : alert.intervalMs.toNat = q.interval
  total : alert.timeout.toNat = q.total
  pos : 0 < q.total
  le : (q.total : Int) ≤ countMax

/-- A countdown beside a round, when so many milliseconds of the alert have passed. -/
structure Counts (q : Cadence) (el : Nat) (now : Instant) (t : Ticking) : Prop where
  inOrder : t.InOrder now
  floor : t.floor = 0
  left : t.countdown.left now = q.total - el

variable {el : Nat} {now : Instant} {t : Ticking} {signals : Signals} {tm : TickMove}

theorem Counts.el_le (h : q.Counts el now t) : el ≤ q.total := by
  have hle := h.inOrder.floor_le_left
  rw [h.floor, h.left] at hle
  omega

/-- It ends when the time is over, and takes nothing off before. -/
theorem Counts.advance (h : q.Counts el now t) (ha : signals.aborted = false) (hm : t.advance now signals false = some tm) :
    (∃ c, tm = .ended c ∧ c.IsAt now ∧ c.left now = 0 ∧ el = q.total) ∨ ∃ t', tm.ticking? = some t' ∧ q.Counts el now t' := by
  have hle := h.el_le
  have hleft := h.left
  rcases h.inOrder.advance hm with ⟨c, rfl, hends⟩ | ⟨t', ht', hgoes⟩
  · refine Or.inl ⟨c, rfl, hends.isAt, ?_⟩
    rcases hends.cause with hcause | hcause | hcause
    · rw [ha] at hcause
      cases hcause
    · cases hcause
    · have hsame := hends.left
      rw [h.floor] at hcause
      exact ⟨hcause, by omega⟩
  · exact Or.inr ⟨t', ht', hgoes.inOrder, hgoes.floor.trans h.floor, hgoes.left.trans h.left⟩

theorem Counts.pass (h : q.Counts el now t) (hp : signals.paused = false) (hn : t.advance now signals false = none) {ms : Nat}
    (halarms : ∀ a ∈ t.alarms, (now.plusMillis ms).nanos ≤ a.nanos) : q.Counts (el + ms) (now.plusMillis ms) t := by
  obtain ⟨hin, hleft⟩ := h.inOrder.pass hn halarms
  refine ⟨hin, h.floor, ?_⟩
  rw [hleft, h.left, hp]
  simp only [Bool.false_eq_true, if_false]
  omega

end Cadence

/-! ## The alert -/

namespace Activity

/-- How far an alert without steps is when so many milliseconds of it have passed, with what was heard of it. -/
inductive Chimes (q : Cadence) (id : StepId) (alert : Alert) (el : Nat) (now : Instant) (ch : Channel) :
    List (Nat × Event) → Activity → Prop
  | entering (hel : el = 0) : Chimes q id alert el now ch [] (.entering (.block id (.notifyUntil alert) []))
  | announcing {countdown : Countdown} {phase : NoticePhase} (hel : el = 0) (hc : countdown.IsAt now)
      (hleft : countdown.left now = q.total) (hdue : phase.due = some now) :
      Chimes q id alert el now ch [] (.announcing id alert [] countdown phase)
  | top {notice : Option Nat} {countdown : Countdown} {k : Nat} {sounds : List (Nat × Event)} (hel : el = k * q.period)
      (hlt : el < q.total) (hc : countdown.IsAt now) (hleft : countdown.left now = q.total - el) (hs : q.Rings k sounds) :
      Chimes q id alert el now ch sounds (.alertTop ⟨id, alert, [], notice⟩ countdown)
  | beginning {notice : Option Nat} {t : Ticking} {k : Nat} {sounds : List (Nat × Event)} (hel : el = k * q.period)
      (hlt : el < q.total) (ht : q.Counts el now t) (hs : q.Rings k sounds) :
      Chimes q id alert el now ch sounds (.alertRound ⟨id, alert, [], notice⟩ t (.sound q.url false .begin))
  | playing {notice : Option Nat} {t : Ticking} {call : Call} {k : Nat} {sounds : List (Nat × Event)}
      (hk : k * q.period < q.total) (hel : k * q.period ≤ el ∧ el ≤ k * q.period + q.lasts) (ht : q.Counts el now t)
      (hends : call.ends = some (q.start.plusMillis (k * q.period + q.lasts))) (hfails : call.fails = false)
      (hurl : call.url = q.url) (huncut : ch.isCut call.number = false) (hs : q.Rings k sounds) :
      Chimes q id alert el now ch (sounds ++ [q.starts k])
        (.alertRound ⟨id, alert, [], notice⟩ t (.sound q.url false (.playing call)))
  | finished {notice : Option Nat} {t : Ticking} {k : Nat} {sounds : List (Nat × Event)} (hel : el = k * q.period + q.lasts)
      (ht : q.Counts el now t) (hs : q.Rings (k + 1) sounds) :
      Chimes q id alert el now ch sounds (.alertRound ⟨id, alert, [], notice⟩ t .done)
  | gap {notice : Option Nat} {t : Ticking} {k : Nat} {sounds : List (Nat × Event)} (hel : k * q.period + q.lasts ≤ el)
      (ht : t.InOrder now) (hfloor : t.floor = max (q.total - ((k + 1) * q.period : Nat)) 0)
      (hleft : t.countdown.left now = q.total - el) (hs : q.Rings (k + 1) sounds) :
      Chimes q id alert el now ch sounds (.alertGap ⟨id, alert, [], notice⟩ t)
  | spent {notice : Option Nat} {countdown : Countdown} {k : Nat} {sounds : List (Nat × Event)} (hel : el = q.total)
      (hc : countdown.IsAt now) (hleft : countdown.left now = 0) (hs : q.Rings k sounds) (hall : q.total ≤ k * q.period) :
      Chimes q id alert el now ch sounds (.alertTop ⟨id, alert, [], notice⟩ countdown)

variable {q : Cadence} {id : StepId} {alert : Alert} {el : Nat} {c : Circumstances} {d : Devices} {m : Move} {a : Activity}
  {sounds : List (Nat × Event)}

namespace Chimes

variable {now : Instant} {ch : Channel}

theorem isAlert (h : Chimes q id alert el now ch sounds a) : a.isAlert = true := by cases h <;> rfl

theorem wake_eq (h : Chimes q id alert el now ch sounds a) : a.wake = a := by cases h <;> rfl

theorem el_le (h : Chimes q id alert el now ch sounds a) : el ≤ q.total := by
  cases h with
  | entering hel => omega
  | announcing hel => omega
  | top _ hlt => omega
  | beginning _ hlt => omega
  | playing _ _ ht => exact ht.el_le
  | finished _ ht => exact ht.el_le
  | gap _ ht hfloor hleft =>
    have hle := ht.floor_le_left
    omega
  | spent hel => omega

end Chimes

/-- What a move makes of an alert that nothing holds up: it goes on, or comes to its end when its time is over. -/
inductive ChimeMove (q : Cadence) (id : StepId) (alert : Alert) (el : Nat) (c : Circumstances) (sounds : List (Nat × Event))
    (m : Move) : Prop
  | goes (h : Chimes q id alert el c.now m.devices.channel (sounds ++ c.now.heard m.events) m.next)
  | ends {k : Nat} (hnext : m.next = done) (hel : el = q.total) (hs : q.Rings k sounds) (hall : q.total ≤ k * q.period)
      (hquiet : c.now.heard m.events = [])

namespace ChimeMove

variable {notice : Option Nat} {countdown : Countdown} {t : Ticking} {k : Nat}

/-- It goes on, and nothing is heard. -/
theorem silent (h : Chimes q id alert el c.now m.devices.channel sounds m.next) (hquiet : c.now.heard m.events = []) :
    ChimeMove q id alert el c sounds m := by
  refine .goes ?_
  rw [hquiet, List.append_nil]
  exact h

/-- After a round the alert waits for its interval, or for nothing if it has none or its time is over. -/
theorem afterRound {events : List Event} (hq : q.IsOf alert c.equipment)
    (h : countdown.IsBehind c.now) (hleft : countdown.left c.now = q.total - el) (hle : el ≤ q.total)
    (hs : q.Rings (k + 1) (sounds ++ c.now.heard events))
    (hel : el = k * q.period + q.lasts ∨ el = q.total ∧ q.total ≤ k * q.period + q.lasts) (notice : Option Nat) (d : Devices) :
    ChimeMove q id alert el c sounds (Raised.afterRound ⟨id, alert, [], notice⟩ countdown c d events) := by
  obtain ⟨hat, hsame, -⟩ := h.settle
  have hrem : (countdown.settle c.now).remaining = q.total - el := by rw [← hat.left_eq, hsame, hleft]
  have hperiod := q.succ_mul_period k
  have hinterval := hq.interval
  have hcount := hq.le
  simp only [countMax] at hcount
  unfold Raised.afterRound
  dsimp only [List.isEmpty_nil]
  simp only [if_true, List.append_nil]
  split
  · rename_i hgap
    simp only [Countdown.expired, Bool.not_eq_true', decide_eq_false_iff_not, hrem, hinterval] at hgap
    refine .goes (.gap (by omega) (Ticking.inOrder_start hat ?_ _) ?_ (hsame.trans hleft) hs)
    · simp only [countMax]
      omega
    · show max _ 0 = _
      simp only [hrem, hinterval, countMax]
      omega
  · rename_i hno
    simp only [Countdown.expired, Bool.not_eq_true', decide_eq_false_iff_not, hrem, hinterval] at hno
    by_cases hover : el = q.total
    · exact .goes (.spent hover hat (by omega) hs (by omega))
    · exact .goes (.top (by omega) (by omega) hat (hsame.trans hleft) hs)

/-- The countdown beside a round goes on, and nothing is heard of it, or gives up the round. -/
theorem beside {current : Activity} (ht : q.Counts el c.now t)
    (ha : c.signals.aborted = false) (hd : Raised.isDismissed ⟨id, alert, [], notice⟩ d = false)
    (hm : advanceBeside ⟨id, alert, [], notice⟩ t current c d = some m) :
    (∃ t', m.next = .alertRound ⟨id, alert, [], notice⟩ t' current ∧ q.Counts el c.now t' ∧ m.devices = d ∧
        c.now.heard m.events = []) ∨
      ∃ countdown : Countdown, countdown.IsAt c.now ∧ countdown.left c.now = 0 ∧ el = q.total ∧
        m = Raised.afterRound ⟨id, alert, [], notice⟩ countdown c (c.silence d) current.dropEvents := by
  obtain ⟨tm, htm, rfl⟩ := Option.map_eq_some_iff.1 hm
  rw [hd] at htm
  rcases ht.advance ha htm with ⟨countdown, rfl, hat, hleft, hel⟩ | ⟨t', ht', hcounts⟩
  · exact Or.inr ⟨countdown, hat, hleft, hel, rfl⟩
  · cases tm with
    | ended countdown => cases ht'
    | goes t'' => cases ht'; exact Or.inl ⟨t', rfl, hcounts, rfl, rfl⟩
    | ticked t'' => cases ht'; exact Or.inl ⟨t', rfl, hcounts, rfl, Instant.heard_eq_nil not_isHeard_report⟩

/-- The question for permission is asked, and answered at once, and so is the call that shows the notification. -/
theorem announcing {phase : NoticePhase} (hq : q.IsOf alert c.equipment)
    (hask : c.equipment.notifier.AnswersAtOnce) (hel : el = 0) (hc : countdown.IsAt c.now)
    (hleft : countdown.left c.now = q.total) (hm : (Activity.announcing id alert [] countdown phase).advance c d = some m) :
    ChimeMove q id alert el c [] m := by
  have hpos := hq.pos
  have htop (notice : Option Nat) (ch : Channel) :
      Chimes q id alert el c.now ch [] (.alertTop ⟨id, alert, [], notice⟩ countdown) :=
    .top (k := 0) (by omega) (by omega) hc (by omega) .none
  obtain ⟨nm, hnm, rfl⟩ := Option.map_eq_some_iff.1 hm
  cases nm with
  | goes phase' d' =>
    obtain ⟨due, delay, fails, rfl, -, -⟩ := NoticePhase.advance_goes hnm
    simp only [NoticePhase.advance] at hnm
    split at hnm
    · cases hnm
      exact .silent (.announcing hel hc hleft (due_present hask)) rfl
    · cases hnm
  | shown notice d' => exact .silent (htop notice _) rfl
  | refused d' => exact .silent (htop none _) rfl

/-- The next round begins, when there is time left. -/
theorem top (hq : q.IsOf alert c.equipment) (ha : c.signals.aborted = false) (hp : c.signals.paused = false)
    (hd : Raised.isDismissed ⟨id, alert, [], notice⟩ d = false) (hel : el = k * q.period) (hlt : el < q.total)
    (hc : countdown.IsAt c.now) (hleft : countdown.left c.now = q.total - el) (hs : q.Rings k sounds) :
    ChimeMove q id alert el c sounds (advanceAlertTop ⟨id, alert, [], notice⟩ countdown c d) := by
  have hrem : ¬ countdown.remaining ≤ 0 := by rw [← hc.left_eq, hleft]; omega
  have hround : Raised.round ⟨id, alert, [], notice⟩ c = .sound q.url false .begin := congrArg (Activity.sound · _ _) hq.url
  unfold advanceAlertTop
  rw [if_neg (by simp [ha, hd, Countdown.expired, hrem]), if_neg (by simp [hp]), hround]
  exact .silent (.beginning hel hlt ⟨Ticking.inOrder_start hc hc.nonneg _, rfl, hleft⟩ hs) rfl

/-- The sound begins before any time passes. -/
theorem beginning (hq : q.IsOf alert c.equipment) (hnow : c.now = q.start.plusMillis el) (ha : c.signals.aborted = false)
    (hd : Raised.isDismissed ⟨id, alert, [], notice⟩ d = false) (hn : d.channel.Numbered) (hel : el = k * q.period)
    (hlt : el < q.total) (ht : q.Counts el c.now t) (hs : q.Rings k sounds)
    (hm : (alertRound ⟨id, alert, [], notice⟩ t (.sound q.url false .begin)).advance c d = some m) :
    ChimeMove q id alert el c sounds m := by
  rcases advance_alertRound hm with ⟨hno, -⟩ | ⟨m', hm', rfl⟩ | hm
  · cases hno
  · cases hm'
    have hcall : Call.start c.equipment.player d.channel.nextCall q.url c.now =
        ⟨d.channel.nextCall, q.url, some (c.now.plusMillis q.lasts), false⟩ := by simp only [Call.start, hq.lasts]
    have hheard : c.now.heard [.play q.url] = [q.starts k] := by
      rw [Instant.heard_singleton rfl, hnow, Instant.millis_plusMillis, hel, Cadence.starts]
    refine .goes ?_
    show Chimes q id alert el c.now _ (sounds ++ c.now.heard [.play q.url]) (.alertRound _ t (.sound q.url false (.playing _)))
    rw [hheard, hcall]
    refine .playing (by omega) (by omega) ht ?_ rfl rfl (hn.isCut_install c.owner q.url) hs
    rw [hnow, Instant.plusMillis_plusMillis, hel]
  · rcases beside ht ha hd hm with ⟨t', hnext, hcounts, -, hquiet⟩ | ⟨countdown, -, -, hover, -⟩
    · exact .silent (hnext ▸ .beginning hel hlt hcounts hs) hquiet
    · omega

/-- The sound comes to its end, or it is cut when the time is over. -/
theorem playing {call : Call} (hq : q.IsOf alert c.equipment) (hnow : c.now = q.start.plusMillis el)
    (ha : c.signals.aborted = false) (hd : Raised.isDismissed ⟨id, alert, [], notice⟩ d = false) (hk : k * q.period < q.total)
    (hel : k * q.period ≤ el ∧ el ≤ k * q.period + q.lasts) (ht : q.Counts el c.now t)
    (hends : call.ends = some (q.start.plusMillis (k * q.period + q.lasts))) (hfails : call.fails = false)
    (hurl : call.url = q.url) (huncut : d.channel.isCut call.number = false) (hs : q.Rings k sounds)
    (hm : (alertRound ⟨id, alert, [], notice⟩ t (.sound q.url false (.playing call))).advance c d = some m) :
    ChimeMove q id alert el c (sounds ++ [q.starts k]) m := by
  have hle := ht.el_le
  have hheard (e : Event) (he : e.isHeard = true) : c.now.heard [e] = [(q.start.millis + el, e)] := by
    rw [Instant.heard_singleton he, hnow, Instant.millis_plusMillis]
  rcases advance_alertRound hm with ⟨hno, -⟩ | ⟨m', hm', rfl⟩ | hm
  · cases hno
  · obtain ⟨how, hhow, rfl⟩ := Option.map_eq_some_iff.1 hm'
    rw [Call.end?_of_not_isCut huncut, hfails] at hhow
    cases hover : call.isOver c.now with
    | false => rw [hover] at hhow; cases hhow
    | true =>
      rw [hover] at hhow
      cases hhow
      simp only [Call.isOver, hends, hnow, decide_eq_true_eq, Instant.plusMillis_le_iff] at hover
      have hsame : el = k * q.period + q.lasts := by omega
      refine .goes ?_
      show Chimes q id alert el c.now _ (_ ++ c.now.heard [.finish call.url]) (.alertRound _ t .done)
      rw [hheard _ rfl, hurl]
      exact .finished hsame ht (by rw [hsame]; exact hs.finish hk (by omega))
  · rcases beside ht ha hd hm with ⟨t', hnext, hcounts, hdev, hquiet⟩ | ⟨countdown, hat, hleft, hover, rfl⟩
    · refine .silent (hnext ▸ ?_) hquiet
      exact .playing hk hel hcounts hends hfails hurl (by rw [hdev]; exact huncut) hs
    · -- the time is over before the end of the sound, or just then, and this was seen first
      have hcut : q.Rings (k + 1) (sounds ++ [q.starts k] ++ c.now.heard [.cut call.url]) := by
        rw [hheard _ rfl, hurl, hover]
        exact hs.cut hk (by omega)
      exact .afterRound hq hat.isBehind (by omega) hle hcut (Or.inr (by omega)) notice (c.silence d)

/-- The interval begins, or the next round, or nothing. -/
theorem finished (hq : q.IsOf alert c.equipment) (hel : el = k * q.period + q.lasts) (ht : q.Counts el c.now t)
    (hs : q.Rings (k + 1) sounds) (hm : (alertRound ⟨id, alert, [], notice⟩ t .done).advance c d = some m) :
    ChimeMove q id alert el c sounds m := by
  cases show some (Raised.afterRound ⟨id, alert, [], notice⟩ t.countdown c d []) = some m from hm
  refine .afterRound hq ht.inOrder.isBehind ht.left ht.el_le ?_ (Or.inl hel) notice d
  rw [show c.now.heard [] = [] from rfl, List.append_nil]
  exact hs

/-- The interval goes on, or it is over and the next round is due, or its time was the last. -/
theorem gap (ha : c.signals.aborted = false)
    (hd : Raised.isDismissed ⟨id, alert, [], notice⟩ d = false) (hel : k * q.period + q.lasts ≤ el) (ht : t.InOrder c.now)
    (hfloor : t.floor = max (q.total - ((k + 1) * q.period : Nat)) 0) (hleft : t.countdown.left c.now = q.total - el)
    (hs : q.Rings (k + 1) sounds) (hm : (alertGap ⟨id, alert, [], notice⟩ t).advance c d = some m) :
    ChimeMove q id alert el c sounds m := by
  have hle := ht.floor_le_left
  have hperiod := q.succ_mul_period k
  obtain ⟨tm, htm, rfl⟩ := Option.map_eq_some_iff.1 hm
  rcases ht.advance htm with ⟨countdown, rfl, hends⟩ | ⟨t', ht', hgoes⟩
  · -- its floor is what is left when the next sound is due, or nothing
    have hsame := hends.left
    have hcause := hends.cause
    simp only [ha, hd, Bool.false_eq_true, false_or] at hcause
    by_cases hover : el = q.total
    · exact .silent (.spent hover hends.isAt (by omega) hs (by omega)) rfl
    · exact .silent (.top (k := k + 1) (by omega) (by omega) hends.isAt (by omega) hs) rfl
  · have hgap (ch : Channel) : Chimes q id alert el c.now ch sounds (.alertGap ⟨id, alert, [], notice⟩ t') :=
      .gap hel hgoes.inOrder (hgoes.floor.trans hfloor) (hgoes.left.trans hleft) hs
    cases tm with
    | ended countdown => cases ht'
    | goes t'' => cases ht'; exact .silent (hgap _) rfl
    | ticked t'' => cases ht'; exact .silent (hgap _) (Instant.heard_eq_nil not_isHeard_report)

end ChimeMove

/-- A move of an alert that nothing holds up brings it on its way, or ends it when its time is over. -/
theorem Chimes.advance (h : Chimes q id alert el c.now d.channel sounds a) (hnow : c.now = q.start.plusMillis el)
    (hq : q.IsOf alert c.equipment) (hask : c.equipment.notifier.AnswersAtOnce) (ha : c.signals.aborted = false)
    (hp : c.signals.paused = false) (hd : a.Unheeded d) (hn : d.channel.Numbered) (hm : a.advance c d = some m) :
    ChimeMove q id alert el c sounds m := by
  cases h with
  | entering hel =>
    cases hm
    have hle : (alert.timeout.toNat : Int) ≤ countMax := hq.total ▸ hq.le
    have hleft := (Countdown.left_start hle c.now).trans (congrArg Nat.cast hq.total)
    exact .silent (.announcing hel (Countdown.isAt_start _ c.now) hleft (due_ask hask)) rfl
  | announcing hel hc hleft => exact .announcing hq hask hel hc hleft hm
  | top hel hlt hc hleft hs =>
    cases hm
    exact .top hq ha hp (hd _ rfl) hel hlt hc hleft hs
  | beginning hel hlt ht hs => exact .beginning hq hnow ha (hd _ rfl) hn hel hlt ht hs hm
  | playing hk hel ht hends hfails hurl huncut hs =>
    exact .playing hq hnow ha (hd _ rfl) hk hel ht hends hfails hurl huncut hs hm
  | finished hel ht hs => exact .finished hq hel ht hs hm
  | gap hel ht hfloor hleft hs => exact .gap ha (hd _ rfl) hel ht hfloor hleft hs hm
  | spent hel hc hleft hs hall =>
    cases hm
    have hexpired : Countdown.expired _ = true := decide_eq_true (Int.le_of_eq (hc.left_eq.symm.trans hleft))
    refine .ends (k := _) ?_ hel hs hall ?_ <;> rw [advanceAlertTop, if_pos (by simp [hexpired])] <;> rfl

/-- Time passes while a sound is playing, and in the interval after it. -/
theorem Chimes.pass (h : Chimes q id alert el c.now d.channel sounds a) (hnow : c.now = q.start.plusMillis el)
    (hp : c.signals.paused = false) (hd : a.Unheeded d) (hrest : a.advance c d = none) {ms : Nat}
    (halarms : ∀ t ∈ a.alarms, (c.now.plusMillis ms).nanos ≤ t.nanos) :
    Chimes q id alert (el + ms) (c.now.plusMillis ms) d.channel sounds a := by
  cases h with
  | entering => cases hrest
  | announcing _ _ _ hdue =>
    have hcome := NoticePhase.advance_eq_none.1 (Option.map_eq_none_iff.1 hrest)
    simp [hdue, Circumstances.hasCome] at hcome
  | top => cases hrest
  | beginning => cases advance_inner_eq_none (n := 1) rfl hrest
  | @playing _ t call k _ hk hel ht hends hfails hurl huncut hs =>
    have hn := advance_of_round_rests hrest
    rw [hd _ rfl] at hn
    have hend := halarms _ (List.mem_append_right _ (by rw [alarms, hends]; exact List.mem_singleton.2 rfl))
    rw [hnow, Instant.plusMillis_plusMillis, Instant.plusMillis_le_iff] at hend
    exact .playing hk (by omega) (ht.pass hp hn fun x hx => halarms x (List.mem_append_left _ hx)) hends hfails hurl huncut hs
  | finished => cases hrest
  | gap hel ht hfloor hleft hs =>
    obtain ⟨hin, hsinks⟩ := ht.pass (Option.map_eq_none_iff.1 hrest) halarms
    refine .gap (by omega) hin hfloor ?_ hs
    rw [hsinks, hleft, hp]
    simp only [Bool.false_eq_true, if_false]
    omega
  | spent => cases hrest

/-- What was heard so far is on the cadence. -/
theorem Chimes.onTime {now : Instant} {ch : Channel} (h : Chimes q id alert el now ch sounds a) : q.Sounds sounds := by
  cases h with
  | entering => exact ⟨0, [], .none, Or.inl rfl⟩
  | announcing => exact ⟨0, [], .none, Or.inl rfl⟩
  | top _ _ _ _ hs => exact ⟨_, _, hs, Or.inl rfl⟩
  | beginning _ _ _ hs => exact ⟨_, _, hs, Or.inl rfl⟩
  | playing hk _ _ _ _ _ _ hs => exact ⟨_, _, hs, Or.inr ⟨rfl, hk⟩⟩
  | finished _ _ hs => exact ⟨_, _, hs, Or.inl rfl⟩
  | gap _ _ _ _ hs => exact ⟨_, _, hs, Or.inl rfl⟩
  | spent _ _ _ hs => exact ⟨_, _, hs, Or.inl rfl⟩

end Activity

end StepTimer
