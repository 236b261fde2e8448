/-
The steps that count down. A wait and an alert use their countdown as any countdown can be used, from their beginning
to their end (`HasUsage`): an alert lets it rest beside its notification and between its rounds and pauses, runs it
beside a round, gives that run up with the round or the round with it, and asks for a floor that is its interval below
what is left, where this is a count. So in every run, at any depth and in any circumstances, the bounds of
`Proofs.Engine.Usage` hold of what a step counts and reports.
-/
import StepTimer.Proofs.Engine.Usage
import StepTimer.Proofs.Solo.Timeout

namespace StepTimer

/-- The milliseconds that an event says a step has left, if it says that. -/
def Event.left? : Event → Option UInt64
  | progress _ left => left
  | _ => none

/-- What is reported of a countdown by some events. -/
def readings (events : List Event) : List UInt64 := events.filterMap Event.left?

/-- The milliseconds that a step is to count down, if it is begun in some circumstances. -/
def Step.total? (c : Circumstances) : Step → Option UInt64
  | .leaf _ (.wait amount unit) => some (unit.durationMillis amount)
  | .leaf _ (.waitUntil time half) =>
    some (UInt64.ofNat (millisUntilClock (sanitizeTime time "12:00") half (c.equipment.wall c.now)))
  | .block _ (.notifyUntil alert) _ => some alert.timeout
  | _ => none

theorem readings_nil : readings [] = [] := rfl

theorem readings_append (events more : List Event) : readings (events ++ more) = readings events ++ readings more :=
  List.filterMap_append

namespace Activity

open Usage

/-- How an activity that is a step uses its countdown. -/
inductive HasUsage : Activity → Usage → Prop
  | counting (id : StepId) (asked : Int) (t : Ticking) : HasUsage (counting id t) (.running asked t)
  | announcing (id : StepId) (alert : Alert) (children : List Step) (countdown : Countdown) (phase : NoticePhase) :
    HasUsage (announcing id alert children countdown phase) (.resting countdown)
  | top (r : Raised) (countdown : Countdown) : HasUsage (alertTop r countdown) (.resting countdown)
  | held (r : Raised) (countdown : Countdown) : HasUsage (alertHeld r countdown) (.resting countdown)
  | round (r : Raised) (asked : Int) (t : Ticking) (current : Activity) :
    HasUsage (alertRound r t current) (.running asked t)
  | gap (r : Raised) (asked : Int) (t : Ticking) : HasUsage (alertGap r t) (.running asked t)

variable {c : Circumstances} {d : Devices} {m : Move} {a b : Activity} {u : Usage} {n : Nat} {total : UInt64}
  {reports : List UInt64}

theorem readings_dropEvents (a : Activity) : readings a.dropEvents = [] := by
  unfold dropEvents
  cases a.call? <;> rfl

theorem readings_report (t : Ticking) : readings t.report = (TickMove.ticked t).reports := by
  rcases t with ⟨countdown, floor, _ | id, phase⟩ <;> rfl

/-- What a move makes of the use of a countdown: it goes on, or the step is at its end. -/
def GoesOnUsing (u : Usage) (m : Move) : Prop :=
  ∃ u', Uses u (readings m.events) u' ∧ (m.next = done ∨ m.next.HasUsage u')

/-- After a round the countdown is settled, and run to a floor that is a count if there is time left. -/
theorem goesOn_afterRound {countdown : Countdown} (h : countdown.InRange) (r : Raised) (d : Devices)
    {events : List Event} (hquiet : readings events = []) :
    GoesOnUsing (.resting countdown) (r.afterRound countdown c d events) := by
  have hsettled : Uses (.resting countdown) [] (.resting (countdown.settle c.now)) := (Use.settle countdown c.now).uses
  have hreported : Uses (.resting countdown) (readings (events ++
      if r.children.isEmpty then [] else [.progress r.id (some (countdown.settle c.now).remainingMs)]))
      (.resting (countdown.settle c.now)) := by
    rw [readings_append, hquiet, List.nil_append]
    split
    · exact hsettled
    · exact hsettled.tail (.report _)
  unfold Raised.afterRound
  dsimp only
  split
  next hgap =>
    have hcount := (h.settle c.now).isCount_sub (by simpa using hgap.2) r.alert.intervalMs
    have hrun := hreported.tail (.run _ hcount (some r.id))
    rw [List.append_nil] at hrun
    exact ⟨_, hrun, Or.inr (.gap ..)⟩
  next => exact ⟨_, hreported, Or.inr (.top ..)⟩

/-- A move that a step makes as the run of its countdown moves, of which it reports what the run reports. -/
theorem goesOn_ticking {asked : Int} {t : Ticking} {dismissed : Bool} {f : TickMove → Move}
    (hm : (t.advance c.now c.signals dismissed).map f = some m)
    (hended : GoesOnUsing (.resting t.countdown) (f (.ended t.countdown)))
    (hgoes : ∀ t', readings (f (.goes t')).events = [] ∧ (f (.goes t')).next.HasUsage (.running asked t'))
    (hticked : ∀ t', readings (f (.ticked t')).events = readings t'.report ∧
      (f (.ticked t')).next.HasUsage (.running asked t')) : GoesOnUsing (.running asked t) m := by
  obtain ⟨tm, htm, rfl⟩ := Option.map_eq_some_iff.1 hm
  have huses : Uses (.running asked t) tm.reports (tm.usage asked) := (Use.advance htm).uses
  cases tm with
  | ended countdown =>
    obtain rfl := (Ticking.ended_of_advance htm).1
    obtain ⟨u', hu', hnext⟩ := hended
    exact ⟨u', huses.trans hu', hnext⟩
  | goes t' =>
    obtain ⟨hreports, hnext⟩ := hgoes t'
    exact ⟨_, hreports.symm ▸ huses, Or.inr hnext⟩
  | ticked t' =>
    obtain ⟨hreports, hnext⟩ := hticked t'
    exact ⟨_, (hreports.trans (readings_report t')).symm ▸ huses, Or.inr hnext⟩

/-- Whether a move of an alert is a move of its round. -/
def IsOfRound (c : Circumstances) (d : Devices) (a : Activity) (m : Move) : Prop :=
  ∃ r t current m', a = alertRound r t current ∧ current.advance c d = some m' ∧
    m = { m' with next := alertRound r t m'.next }

theorem goesOn_counting {id : StepId} {t : Ticking} (asked : Int) (h : (counting id t).advance c d = some m) :
    GoesOnUsing (.running asked t) m :=
  goesOn_ticking h ⟨_, .refl _, Or.inl rfl⟩ (fun _ => ⟨rfl, .counting ..⟩) fun _ => ⟨rfl, .counting ..⟩

theorem goesOn_announcing {id : StepId} {alert : Alert} {children : List Step} {countdown : Countdown}
    {phase : NoticePhase} (h : (announcing id alert children countdown phase).advance c d = some m) :
    GoesOnUsing (.resting countdown) m := by
  obtain ⟨nm, -, rfl⟩ := Option.map_eq_some_iff.1 h
  cases nm with
  | goes phase' d' => exact ⟨_, .refl _, Or.inr (.announcing ..)⟩
  | shown notice d' => exact ⟨_, .refl _, Or.inr (.top ..)⟩
  | refused d' => exact ⟨_, .refl _, Or.inr (.top ..)⟩

theorem goesOn_alertTop (r : Raised) (countdown : Countdown) (c : Circumstances) (d : Devices) :
    GoesOnUsing (.resting countdown) (advanceAlertTop r countdown c d) := by
  unfold advanceAlertTop
  split
  · exact ⟨_, .refl _, Or.inl rfl⟩
  · split
    · exact ⟨_, (Use.suspend countdown c.now).uses, Or.inr (.held ..)⟩
    · exact ⟨_, (Use.run countdown isCount_zero r.reportAs).uses, Or.inr (.round ..)⟩

/-- When the run beside a round comes to its end, the round is given up. -/
theorem goesOn_beside {r : Raised} {t : Ticking} {current : Activity} (hr : t.countdown.InRange) (asked : Int)
    (h : advanceBeside r t current c d = some m) : GoesOnUsing (.running asked t) m := by
  have hended := goesOn_afterRound hr r (c := c) (c.silence d) (readings_dropEvents current)
  exact goesOn_ticking h hended (fun _ => ⟨rfl, .round ..⟩) fun _ => ⟨rfl, .round ..⟩

theorem goesOn_alertGap {r : Raised} {t : Ticking} (asked : Int) (h : (alertGap r t).advance c d = some m) :
    GoesOnUsing (.running asked t) m :=
  goesOn_ticking h ⟨_, .refl _, Or.inr (.top ..)⟩ (fun _ => ⟨rfl, .gap ..⟩) fun _ => ⟨rfl, .gap ..⟩

/-- A step that counts down uses its countdown in all its moves, but for those of a round. -/
theorem HasUsage.advance (hu : a.HasUsage u) (hr : u.countdown.InRange) (hm : a.advance c d = some m)
    (hown : ¬IsOfRound c d a m) : GoesOnUsing u m := by
  cases hu with
  | counting id asked t => exact goesOn_counting asked hm
  | announcing => exact goesOn_announcing hm
  | top r countdown =>
    cases hm
    exact goesOn_alertTop r countdown c d
  | held r countdown =>
    rw [advance_alertHeld hm]
    exact ⟨_, .refl _, Or.inr (.top ..)⟩
  | round r asked t current =>
    rcases advance_alertRound hm with ⟨-, rfl⟩ | ⟨m', hm', rfl⟩ | hm
    · -- the round has come to its end, and the run of the countdown beside it is given up
      obtain ⟨u', hu', hnext⟩ := goesOn_afterRound hr r (c := c) d readings_nil
      exact ⟨u', (Use.drop asked t).uses.trans hu', hnext⟩
    · exact absurd ⟨r, t, current, m', rfl, hm', rfl⟩ hown
    · exact goesOn_beside hr asked hm
  | gap r asked t => exact goesOn_alertGap asked hm

/-- A move of a round does nothing with the countdown beside it. -/
theorem HasUsage.ofRound (hu : a.HasUsage u) (hm : IsOfRound c d a m) : m.next.HasUsage u := by
  obtain ⟨r, t, current, m', rfl, -, rfl⟩ := hm
  cases hu with
  | round r asked t => exact .round ..

theorem HasUsage.wake (hu : a.HasUsage u) : a.wake.HasUsage u := by
  cases hu with
  | counting => exact .counting ..
  | announcing => exact .announcing ..
  | top => exact .top ..
  | held => exact .held ..
  | round => exact .round ..
  | gap => exact .gap ..

/-- What a step that counts down a total comes to, with what it reported of that: it begins, it makes its moves in any
circumstances, and the steps in its rounds make theirs. -/
inductive CountsDown (s : Step) (total : UInt64) : List UInt64 → Activity → Prop
  | begins (c : Circumstances) (d : Devices) (h : s.total? c = some total) :
    CountsDown s total (readings (beginStep c d s).events) (beginStep c d s).next
  | moves {reports : List UInt64} {a : Activity} {c : Circumstances} {d : Devices} {m : Move}
      (h : CountsDown s total reports a) (hm : a.advance c d = some m) (hown : ¬IsOfRound c d a m) :
    CountsDown s total (reports ++ readings m.events) m.next
  | inRound {reports : List UInt64} {a : Activity} {c : Circumstances} {d : Devices} {m : Move}
      (h : CountsDown s total reports a) (hm : IsOfRound c d a m) : CountsDown s total reports m.next
  | wakes {reports : List UInt64} {a : Activity} (h : CountsDown s total reports a) : CountsDown s total reports a.wake

/-- What a step that counts down has done with its countdown. An alert reports its total before it uses that. -/
structure Counted (total : UInt64) (reports : List UInt64) (a : Activity) (u : Usage) : Prop where
  used : ∃ begun uses, Uses (.resting (.start total begun)) uses u ∧ (reports = uses ∨ reports = total :: uses)
  goesOn : a = done ∨ a.HasUsage u

theorem Counted.kept (h : Counted total reports a u) : Kept total reports u := by
  obtain ⟨⟨begun, uses, hu, rfl | rfl⟩, -⟩ := h
  · exact hu.kept
  · exact hu.kept.announced

theorem counted_beginWait (id : StepId) (total : UInt64) (c : Circumstances) (d : Devices) :
    ∃ u, Counted total (readings (beginWait id total c d).events) (beginWait id total c d).next u :=
  have huses := (Use.report (.start total c.now)).uses.tail (.run _ isCount_zero (some id))
  ⟨_, ⟨c.now, _, huses, Or.inl rfl⟩, Or.inr (.counting ..)⟩

theorem counted_beginStep {s : Step} (h : s.total? c = some total) (d : Devices) :
    ∃ u, Counted total (readings (beginStep c d s).events) (beginStep c d s).next u := by
  cases s with
  | leaf id action =>
    cases action with
    | wait amount unit =>
      cases h
      exact counted_beginWait id _ c d
    | waitUntil time half =>
      cases h
      exact counted_beginWait id _ c d
    | _ => cases h
  | block id frame children =>
    cases frame with
    | notifyUntil alert =>
      cases h
      exact ⟨_, ⟨c.now, _, .refl _, Or.inr rfl⟩, Or.inr (.announcing ..)⟩
    | loop count => cases h

theorem Counted.moves (h : Counted total reports a u) (hm : a.advance c d = some m) (hown : ¬IsOfRound c d a m) :
    ∃ u', Counted total (reports ++ readings m.events) m.next u' := by
  have hr := h.kept.inRange
  obtain ⟨⟨begun, uses, hused, hreports⟩, rfl | hu⟩ := h
  · cases hm
  · obtain ⟨u', hu', hnext⟩ := hu.advance hr hm hown
    refine ⟨u', ⟨begun, _, hused.trans hu', hreports.imp ?_ ?_⟩, hnext⟩ <;> (rintro rfl; rfl)

theorem Counted.inRound (h : Counted total reports a u) (hm : IsOfRound c d a m) : Counted total reports m.next u := by
  refine ⟨h.used, Or.inr ?_⟩
  rcases h.goesOn with rfl | hu
  · obtain ⟨r, t, current, m', hround, -⟩ := hm
    cases hround
  · exact hu.ofRound hm

theorem Counted.wakes (h : Counted total reports a u) : Counted total reports a.wake u := by
  refine ⟨h.used, h.goesOn.imp ?_ HasUsage.wake⟩
  rintro rfl
  rfl

/-- A step that counts down does with its countdown only what can be done with it. -/
theorem CountsDown.counted {s : Step} (h : CountsDown s total reports a) : ∃ u, Counted total reports a u := by
  induction h with
  | begins c d h => exact counted_beginStep h d
  | moves _ hm hown ih =>
    obtain ⟨u, hu⟩ := ih
    exact hu.moves hm hown
  | inRound _ hm ih => exact ih.imp fun u hu => hu.inRound hm
  | wakes _ ih => exact ih.imp fun u hu => hu.wakes

end Activity

/-- Whether a step counts down does not depend on the circumstances. -/
theorem Step.isSome_total? (s : Step) (c c' : Circumstances) : (s.total? c).isSome = (s.total? c').isSome := by
  cases s with
  | leaf id action => cases action <;> rfl
  | block id frame children => cases frame <;> rfl

namespace Course

open Activity

/-- A run that is at a depth in a step which is about to begin or counts down. -/
def InCount (n : Nat) (s : StepTimer.Step) (w : Course) : Prop :=
  w.run.activity.inner n = some (.entering s) ∨
    ∃ b total reports, w.run.activity.inner n = some b ∧ CountsDown s total reports b

variable {n : Nat} {s : StepTimer.Step} {c : Circumstances} {w₁ w w' : Course}

theorem InCount.moved (h : w.InCount n s) (hs : (s.total? c).isSome = true) (hw : w.IsUnder n) {coin : Bool}
    {m : Move} (hm : w.run.advance coin = some m) (hw' : (w.moved m).IsUnder n) : (w.moved m).InCount n s := by
  obtain ⟨b, hb, hnot⟩ := hw
  -- the step moves itself, or a countdown around it does; if what is around it were given up it would not be there
  cases inner_advance hb hnot hm with
  | stays hnext =>
    have hsame : (w.moved m).run.activity.inner n = w.run.activity.inner n := hnext.trans hb.symm
    unfold InCount
    rw [hsame]
    exact h
  | dropped hnext =>
    obtain ⟨b', hb', -⟩ := hw'
    cases hnext.symm.trans hb'
  | @moves mb hmb hnext hd =>
    rcases h with he | ⟨b', total, reports, hb', hcount⟩
    · cases hb.symm.trans he
      cases hmb
      obtain ⟨total, htotal⟩ := Option.isSome_iff_exists.1 ((s.isSome_total? _ c).trans hs)
      exact Or.inr ⟨_, total, _, hnext, .begins _ _ htotal⟩
    · cases hb.symm.trans hb'
      by_cases hround : IsOfRound { w.run.circumstances with coin := coin } w.run.devices b mb
      · exact Or.inr ⟨_, total, _, hnext, .inRound hcount hround⟩
      · exact Or.inr ⟨_, total, _, hnext, .moves hcount hmb hround⟩

/-- In every step of a course that stays in it a step counts down as it should. -/
theorem InCount.step (h : w.InCount n s) (hs : (s.total? c).isSome = true) (hw : w.IsUnder n)
    (hstep : Step (fun _ => True) w w') (hw' : w'.IsUnder n) : w'.InCount n s := by
  cases hstep with
  | disturb x _ => unfold InCount; rw [w.activity_disturbed]; exact h
  | move coin hm => exact h.moved hs hw hm hw'
  | wake _ =>
    rcases h with hb | ⟨b, total, reports, hb, hcount⟩
    · exact Or.inl (inner_wake hb)
    · exact Or.inr ⟨_, _, _, inner_wake hb, .wakes hcount⟩
  | pass ms _ _ _ => unfold InCount; rw [w.activity_passed]; exact h

/-- From the moment at which a step becomes active a run that stays in it counts it down. -/
theorem inCount_of_stays (h₁ : w₁.run.activity.inner n = some (.entering s)) (hs : (s.total? c).isSome = true)
    (h : Stays n w₁ w) : w.InCount n s := by
  have hboth : w.InCount n s ∧ w.IsUnder n := by
    induction h with
    | refl => exact ⟨Or.inl h₁, _, h₁, rfl⟩
    | tail _ hstep ih => exact ⟨ih.1.step hs ih.2 hstep.1 hstep.2, hstep.2⟩
  exact hboth.1

/-- The arithmetic of a countdown stays in range. Of every total, whatever is done with its countdown at whatever
instants, the bounds hold; a step that counts down does nothing else with its countdown and reports nothing else; and in
every run, at any depth and whatever befalls it, a step with a time counts down so. -/
theorem countdowns_in_range :
    (∀ {total : UInt64} {begun : Instant} {reports : List UInt64} {u : Usage},
      Usage.Uses (.resting (.start total begun)) reports u → Usage.InBounds total reports u) ∧
    (∀ {s : StepTimer.Step} {total : UInt64} {reports : List UInt64} {a : Activity},
      CountsDown s total reports a → ∃ u, Counted total reports a u ∧ Usage.InBounds total reports u) ∧
    ∀ {n : Nat} {s : StepTimer.Step} {c : Circumstances} {w₁ w : Course},
      w₁.run.activity.inner n = some (.entering s) → (s.total? c).isSome = true → Stays n w₁ w → w.InCount n s := by
  refine ⟨fun h => h.kept.inBounds, fun h => ?_, fun h₁ hs h => inCount_of_stays h₁ hs h⟩
  obtain ⟨u, hu⟩ := h.counted
  exact ⟨u, hu, hu.kept.inBounds⟩

/-- An alert with the longest timeout and the longest interval that there are. -/
def longSiren : StepTimer.Step :=
  .block "alarm" (.notifyUntil
    { title := "Alarm", timeoutMs := some 0xFFFFFFFFFFFFFFFF, interval := .ofNat 0xFFFFFFFFFFFFFFFF }) []

/-- It has just become active. -/
def longSirenEntered : Course :=
  goOn 1 ⟨.ofSteps ⟨fun _ _ => .lasts 100, .off, "siren", fun _ => ⟨0⟩⟩ [longSiren], 0, []⟩

/-- It has sounded once, and waits for its interval. -/
def longSirenGap : Course := ((longSirenEntered.stayOn 1 20).passed 100).stayOn 1 20

theorem countdowns_in_range_longSiren :
    (∃ u, Usage.Uses (.resting (.start 0xFFFFFFFFFFFFFFFF ⟨0⟩)) [0x7FFFFFFFFFFFFFFF] u ∧
      Usage.InBounds 0xFFFFFFFFFFFFFFFF [0x7FFFFFFFFFFFFFFF] u) ∧
    ∃ r t total reports, longSirenGap.run.activity.inner 1 = some (.alertGap r t) ∧
      t.countdown.remaining = 0x7FFFFFFFFFFFFFFF - 100 ∧ t.floor = 0 ∧
      CountsDown longSiren total reports (.alertGap r t) ∧ (total :: reports).Pairwise (· ≥ ·) ∧
      t.countdown.remaining ≤ total.toNat := by
  have hstays : Stays 1 longSirenEntered longSirenGap :=
    (stays_elapsed 20 100 (by decide) (Solo.waits_of_sides rfl rfl rfl) (by decide) ⟨_, rfl, rfl⟩).trans
      (stays_stayOn 1 20 _)
  have hreported : Usage.Uses (.resting (.start 0xFFFFFFFFFFFFFFFF ⟨0⟩)) [0x7FFFFFFFFFFFFFFF] _ :=
    (Usage.Use.report _).uses
  have hentered : longSirenEntered.run.activity.inner 1 = some (.entering longSiren) := rfl
  obtain ⟨r, t, hgap, hleft, hfloor⟩ : ∃ r t, longSirenGap.run.activity.inner 1 = some (.alertGap r t) ∧
      t.countdown.remaining = 0x7FFFFFFFFFFFFFFF - 100 ∧ t.floor = 0 :=
    ⟨_, _, rfl, by decide +kernel, by decide +kernel⟩
  have hcounts := countdowns_in_range.2.2 (c := longSirenEntered.run.circumstances) hentered rfl hstays
  refine ⟨⟨_, hreported, countdowns_in_range.1 hreported⟩, ?_⟩
  rcases hcounts with he | ⟨b, total, reports, hb, hcount⟩
  · cases hgap.symm.trans he
  · cases hgap.symm.trans hb
    obtain ⟨u, ⟨-, hdone | hu⟩, hbounds⟩ := countdowns_in_range.2.1 hcount
    · cases hdone
    · cases hu
      exact ⟨r, t, total, reports, hgap, hleft, hfloor, hcount, hbounds.descending, hbounds.left.2⟩

end Course

end StepTimer
