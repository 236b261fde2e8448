/-
The steps that a run can speak of. An activity names the steps it is in and those it may still come
to, at any depth; a move brings in no new name, and reports only steps that were named before it.
-/
import StepTimer.Proofs.Engine.Moves

namespace StepTimer

/-- The step that an event reports. -/
def Event.step? : Event → Option StepId
  | progress step _ => some step
  | _ => none

/-- The steps that an alert can speak of. -/
def Raised.names (r : Raised) : List StepId := r.id :: Step.idsOf r.children

namespace Activity

/-- The steps that an activity can speak of. -/
@[simp] def names : Activity → List StepId
  | ready steps => Step.idsOf steps
  | held steps => Step.idsOf steps
  | within current rest => current.names ++ Step.idsOf rest
  | entering s => s.ids
  | counting id ticking => id :: ticking.reportAs.toList
  | announcing id _ children _ _ => id :: Step.idsOf children
  | alertTop raised _ => raised.names
  | alertHeld raised _ => raised.names
  | alertRound raised ticking current => raised.names ++ ticking.reportAs.toList ++ current.names
  | alertGap raised ticking => raised.names ++ ticking.reportAs.toList
  | loopTop _ children _ => Step.idsOf children
  | loopPass _ children _ current => Step.idsOf children ++ current.names
  | loopYield _ children _ => Step.idsOf children
  | _ => []

end Activity

/-- The steps that are spoken of in a move, and that can be spoken of after it. -/
def Move.names (m : Move) : List StepId := m.events.filterMap Event.step? ++ m.next.names

theorem Ticking.names_report (t : Ticking) : t.report.filterMap Event.step? = t.reportAs.toList := by
  unfold Ticking.report
  cases t.reportAs <;> rfl

namespace Activity

variable (c : Circumstances) (d : Devices)

/-! ## The beginning of a step -/

theorem names_beginStep (s : Step) : (beginStep c d s).names ⊆ s.ids := by
  cases s with
  | leaf id action =>
    cases action <;>
      simp [beginStep, beginAction, beginWait, Move.names, names, Step.ids, Event.step?, Ticking.start]
  | block id frame children =>
    cases frame with
    | notifyUntil alert => simp [beginStep, beginBlock, Move.names, names, Step.ids, Event.step?]
    | loop count =>
      rcases beginLoop_cases id count children c d with h | ⟨-, ⟨-, h⟩ | ⟨-, h⟩⟩ <;>
        simp [h, Move.names, names, Step.ids]

/-! ## Alerts -/

theorem names_afterRound (r : Raised) (countdown : Countdown) (events : List Event) :
    (r.afterRound countdown c d events).names ⊆ events.filterMap Event.step? ++ r.names := by
  obtain ⟨report, hreport, hcase⟩ := afterRound_cases r countdown c d events
  have hnames : report.filterMap Event.step? ⊆ r.names := by
    intro id hid
    obtain ⟨e, he, hstep⟩ := List.mem_filterMap.1 hid
    obtain ⟨ms, rfl⟩ := hreport e he
    cases hstep
    exact List.mem_cons_self
  rcases hcase with ⟨t, -, ht, h⟩ | ⟨countdown', h⟩ <;> rw [h] <;>
    simp only [Move.names, names, List.filterMap_append]
  · rw [ht]
    have hid : [r.id] ⊆ r.names := by simp [Raised.names]
    simp only [Option.toList_some]
    grind
  · grind

theorem names_alertTop (r : Raised) (countdown : Countdown) :
    (advanceAlertTop r countdown c d).names ⊆ r.names := by
  rcases alertTop_cases r countdown c d with h | ⟨-, ⟨countdown', h⟩ | ⟨t, ht, h⟩⟩ <;> rw [h]
  · simp [Raised.finish, Move.names, names, Raised.names, Event.step?]
  · simp [Move.names, names]
  · -- the countdown beside a sound reports for the alert, and steps in a round report themselves
    simp only [Move.names, names, ht, Raised.reportAs, Raised.round]
    split <;> simp [names, Raised.names]

theorem names_beside {r : Raised} {t : Ticking} {current : Activity} {m : Move}
    (h : advanceBeside r t current c d = some m) :
    m.names ⊆ r.names ++ t.reportAs.toList ++ current.names := by
  rcases beside_cases h with ⟨countdown, rfl⟩ | ⟨tm, t', htm, ht', hnext, -, hevents⟩
  · refine List.Subset.trans (names_afterRound c (c.silence d) r countdown current.dropEvents) ?_
    have hdrop : current.dropEvents.filterMap Event.step? = [] := by
      unfold dropEvents; cases current.call? <;> rfl
    rw [hdrop]
    simp
  · have hrep := Ticking.reportAs_advance htm ht'
    rcases hevents with he | he <;> simp [Move.names, hnext, he, names, Ticking.names_report, hrep]

/-! ## All activities -/

theorem names_activate (s : Step) (rest : List Step) : (activate d s rest).names ⊆ Step.idsOf (s :: rest) := by
  simp [activate, Move.names, names, Event.step?, Step.idsOf, Step.id_mem_ids]

theorem names_advance {a : Activity} {m : Move} (h : a.advance c d = some m) : m.names ⊆ a.names := by
  induction a generalizing m with
  | done => cases h
  | ready steps =>
    rcases advance_ready h with rfl | ⟨-, rfl | ⟨s, rest, rfl, rfl⟩⟩
    · simp [Move.names, names]
    · simp [Move.names, names]
    · exact names_activate d s rest
  | held steps =>
    rcases advance_held h with rfl | ⟨-, s, rest, rfl, rfl⟩
    · simp [Move.names, names]
    · exact names_activate d s rest
  | within current rest ih =>
    rcases advance_within h with ⟨-, rfl⟩ | ⟨m', hm', rfl⟩
    · simp [Move.names, names]
    · have := ih hm'
      simp only [Move.names, names] at this ⊢
      grind
  | entering s => cases h; exact names_beginStep c d s
  | counting id t =>
    obtain ⟨-, ⟨hnext, he⟩ | ⟨tm, t', htm, ht', hnext, hevents⟩⟩ := advance_counting h
    · simp [Move.names, hnext, he, names, Event.step?]
    · have hrep := Ticking.reportAs_advance htm ht'
      rcases hevents with he | he <;> simp [Move.names, hnext, he, names, Ticking.names_report, hrep]
  | sound url replays phase =>
    rcases advance_sound h with ⟨-, rfl⟩ | ⟨-, rfl⟩ | ⟨-, rfl⟩ | ⟨call, how, -, -, rfl⟩
    · simp [Move.names, names]
    · simp [Move.names, names]
    · split <;> simp [Move.names, names, beginSound, Event.step?]
    · cases how <;> simp only [Move.names, endEvent] <;> split <;> simp [names, Event.step?]
  | notifying n phase grace =>
    rcases advance_notifying h with ⟨due, delay, fails, -, rfl⟩ | ⟨hnext, -, he | he⟩
    · simp [Move.names, names]
    · simp [Move.names, hnext, he, names]
    · simp [Move.names, hnext, he, names, Event.step?]
  | announcing id alert children countdown phase =>
    rcases advance_announcing h with ⟨due, delay, fails, -, rfl⟩ | ⟨notice, hnext, -, he | he⟩
    · simp [Move.names, names]
    · simp [Move.names, hnext, he, names, Raised.names]
    · simp [Move.names, hnext, he, names, Raised.names, List.filterMap_cons, Event.step?]
  | alertTop r countdown => cases h; exact names_alertTop c d r countdown
  | alertHeld r countdown => rw [advance_alertHeld h]; simp [Move.names, names]
  | alertRound r t current ih =>
    rcases advance_alertRound h with ⟨-, rfl⟩ | ⟨m', hm', rfl⟩ | h
    · exact List.Subset.trans (names_afterRound c d r t.countdown []) (by simp [names])
    · have := ih hm'
      simp only [Move.names, names] at this ⊢
      grind
    · exact names_beside c d h
  | alertGap r t =>
    obtain ⟨-, ⟨countdown, hnext, he⟩ | ⟨tm, t', htm, ht', hnext, hevents⟩⟩ := advance_alertGap h
    · simp [Move.names, hnext, he, names]
    · have hrep := Ticking.reportAs_advance htm ht'
      rcases hevents with he | he <;> simp [Move.names, hnext, he, names, Ticking.names_report, hrep]
  | loopTop count children passes =>
    cases h
    rcases loopTop_cases count children passes c d with h | ⟨-, h⟩ <;> rw [h] <;> simp [Move.names, names]
  | loopPass count children passes current ih =>
    rcases advance_loopPass h with ⟨-, rfl⟩ | ⟨m', hm', rfl⟩
    · simp [Move.names, names]
    · have := ih hm'
      simp only [Move.names, names] at this ⊢
      grind
  | loopYield count children passes => cases h
  | parked => rw [advance_parked h]; simp [Move.names, names]

theorem names_wake (a : Activity) : a.wake.names ⊆ a.names := by
  induction a with
  | within current rest ih => simp only [wake, names]; grind
  | alertRound r ticking current ih => simp only [wake, names]; grind
  | loopPass count children passes current ih => simp only [wake, names]; grind
  | _ => simp [wake, names]

end Activity

end StepTimer
