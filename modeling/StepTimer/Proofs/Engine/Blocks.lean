/-
The blocks of a run: the alerts and loops that it is in, those in the steps still to come, and those within
these. A move of a run brings in no new block, so what holds of each of its blocks goes on holding.
-/
import StepTimer.Proofs.Engine.Moves

namespace StepTimer

namespace Step

mutual

/-- Whether each block of a step is of a kind: the step itself, and those below it. -/
def EachBlock (P : Frame → List Step → Prop) : Step → Prop
  | leaf _ _ => True
  | block _ frame children => P frame children ∧ EachBlockIn P children

/-- Whether each block in a list of steps is of a kind. -/
def EachBlockIn (P : Frame → List Step → Prop) : List Step → Prop
  | [] => True
  | s :: rest => EachBlock P s ∧ EachBlockIn P rest

end

variable {P Q : Frame → List Step → Prop}

mutual

theorem EachBlock.mono (hPQ : ∀ frame children, P frame children → Q frame children) :
    ∀ {s : Step}, s.EachBlock P → s.EachBlock Q
  | leaf _ _, _ => trivial
  | block _ frame children, h => ⟨hPQ frame children h.1, EachBlockIn.mono hPQ h.2⟩

theorem EachBlockIn.mono (hPQ : ∀ frame children, P frame children → Q frame children) :
    ∀ {steps : List Step}, EachBlockIn P steps → EachBlockIn Q steps
  | [], _ => trivial
  | _ :: _, h => ⟨EachBlock.mono hPQ h.1, EachBlockIn.mono hPQ h.2⟩

end

end Step

/-- Whether an alert and each block in its rounds are of a kind. -/
def Raised.EachBlock (P : Frame → List Step → Prop) (r : Raised) : Prop :=
  P (.notifyUntil r.alert) r.children ∧ Step.EachBlockIn P r.children

namespace Activity

/-- Whether each block of a run is of a kind. -/
def EachBlock (P : Frame → List Step → Prop) : Activity → Prop
  | ready steps => Step.EachBlockIn P steps
  | held steps => Step.EachBlockIn P steps
  | within current rest => current.EachBlock P ∧ Step.EachBlockIn P rest
  | entering s => s.EachBlock P
  | announcing id alert children _ _ => Raised.EachBlock P ⟨id, alert, children, none⟩
  | alertTop r _ => r.EachBlock P
  | alertHeld r _ => r.EachBlock P
  | alertRound r _ current => r.EachBlock P ∧ current.EachBlock P
  | alertGap r _ => r.EachBlock P
  | loopTop count children _ => P (.loop count) children ∧ Step.EachBlockIn P children
  | loopPass count children _ current => (P (.loop count) children ∧ Step.EachBlockIn P children) ∧ current.EachBlock P
  | loopYield count children _ => P (.loop count) children ∧ Step.EachBlockIn P children
  | _ => True

variable {P : Frame → List Step → Prop} {c : Circumstances} {d : Devices} {m : Move}

theorem eachBlock_beginStep {s : Step} (h : s.EachBlock P) : (beginStep c d s).next.EachBlock P := by
  cases s with
  | leaf id action => cases action <;> trivial
  | block id frame children =>
    cases frame with
    | notifyUntil alert => exact h
    | loop count =>
      rcases beginLoop_cases id count children c d with hb | ⟨-, ⟨-, hb⟩ | ⟨-, hb⟩⟩ <;> rw [hb]
      · exact h
      · trivial
      · trivial

theorem eachBlock_round {r : Raised} (h : r.EachBlock P) : (r.round c).EachBlock P := by
  unfold Raised.round
  split
  · trivial
  · exact h.2

theorem eachBlock_afterRound {r : Raised} (h : r.EachBlock P) (countdown : Countdown) (events : List Event) :
    (r.afterRound countdown c d events).next.EachBlock P := by
  obtain ⟨report, -, ⟨t, -, -, he⟩ | ⟨countdown', he⟩⟩ := afterRound_cases r countdown c d events <;> rw [he] <;>
    exact h

theorem EachBlock.mono {Q : Frame → List Step → Prop} (hPQ : ∀ frame children, P frame children → Q frame children)
    {a : Activity} (ha : a.EachBlock P) : a.EachBlock Q := by
  have hraised {r : Raised} (hr : r.EachBlock P) : r.EachBlock Q := ⟨hPQ _ _ hr.1, hr.2.mono hPQ⟩
  induction a with
  | ready steps => exact Step.EachBlockIn.mono hPQ ha
  | held steps => exact Step.EachBlockIn.mono hPQ ha
  | within current rest ih => exact ⟨ih ha.1, ha.2.mono hPQ⟩
  | entering s => exact Step.EachBlock.mono hPQ ha
  | announcing => exact hraised ha
  | alertTop => exact hraised ha
  | alertHeld => exact hraised ha
  | alertRound r t current ih => exact ⟨hraised ha.1, ih ha.2⟩
  | alertGap => exact hraised ha
  | loopTop => exact ⟨hPQ _ _ ha.1, ha.2.mono hPQ⟩
  | loopPass count children passes current ih => exact ⟨⟨hPQ _ _ ha.1.1, ha.1.2.mono hPQ⟩, ih ha.2⟩
  | loopYield => exact ⟨hPQ _ _ ha.1, ha.2.mono hPQ⟩
  | _ => trivial

/-- A move brings in no new block. -/
theorem eachBlock_advance {a : Activity} (ha : a.EachBlock P) (h : a.advance c d = some m) : m.next.EachBlock P := by
  induction a generalizing m with
  | done => cases h
  | ready steps =>
    rcases advance_ready h with rfl | ⟨-, rfl | ⟨s, rest, rfl, rfl⟩⟩
    · trivial
    · exact ha
    · exact ha
  | held steps =>
    rcases advance_held h with rfl | ⟨-, s, rest, rfl, rfl⟩
    · trivial
    · exact ha
  | within current rest ih =>
    rcases advance_within h with ⟨-, rfl⟩ | ⟨m', hm', rfl⟩
    · exact ha.2
    · exact ⟨ih ha.1 hm', ha.2⟩
  | entering s =>
    cases h
    exact eachBlock_beginStep ha
  | counting id t =>
    obtain ⟨-, ⟨hnext, -⟩ | ⟨tm, t', -, -, hnext, -⟩⟩ := advance_counting h <;> rw [hnext] <;> trivial
  | sound url replays phase =>
    rcases advance_sound h with ⟨-, rfl⟩ | ⟨-, rfl⟩ | ⟨-, rfl⟩ | ⟨call, how, -, -, rfl⟩
    · trivial
    · trivial
    · split <;> trivial
    · dsimp only
      split <;> trivial
  | notifying n phase grace =>
    rcases advance_notifying h with ⟨due, delay, fails, -, rfl⟩ | ⟨hnext, -⟩
    · trivial
    · rw [hnext]
      trivial
  | announcing id alert children countdown phase =>
    rcases advance_announcing h with ⟨due, delay, fails, -, rfl⟩ | ⟨notice, hnext, -⟩
    · exact ha
    · rw [hnext]
      exact ha
  | alertTop r countdown =>
    cases h
    rcases alertTop_cases r countdown c d with he | ⟨-, ⟨countdown', he⟩ | ⟨t, -, he⟩⟩ <;> rw [he]
    · trivial
    · exact ha
    · exact ⟨ha, eachBlock_round ha⟩
  | alertHeld r countdown =>
    rw [advance_alertHeld h]
    exact ha
  | alertRound r t current ih =>
    rcases advance_alertRound h with ⟨-, rfl⟩ | ⟨m', hm', rfl⟩ | h
    · exact eachBlock_afterRound ha.1 t.countdown []
    · exact ⟨ha.1, ih ha.2 hm'⟩
    · rcases beside_cases h with ⟨countdown, rfl⟩ | ⟨tm, t', -, -, hnext, -⟩
      · exact eachBlock_afterRound ha.1 countdown current.dropEvents
      · rw [hnext]
        exact ha
  | alertGap r t =>
    obtain ⟨-, ⟨countdown, hnext, -⟩ | ⟨tm, t', -, -, hnext, -⟩⟩ := advance_alertGap h <;> rw [hnext] <;> exact ha
  | loopTop count children passes =>
    cases h
    rcases loopTop_cases count children passes c d with he | ⟨-, he⟩ <;> rw [he]
    · trivial
    · exact ⟨ha, ha.2⟩
  | loopPass count children passes current ih =>
    rcases advance_loopPass h with ⟨-, rfl⟩ | ⟨m', hm', rfl⟩
    · exact ha.1
    · exact ⟨ha.1, ih ha.2 hm'⟩
  | loopYield count children passes => cases h
  | parked =>
    rw [advance_parked h]
    trivial

theorem eachBlock_wake {a : Activity} (ha : a.EachBlock P) : a.wake.EachBlock P := by
  induction a with
  | within current rest ih => exact ⟨ih ha.1, ha.2⟩
  | alertRound r t current ih => exact ⟨ha.1, ih ha.2⟩
  | loopPass count children passes current ih => exact ⟨ha.1, ih ha.2⟩
  | _ => exact ha

end Activity

end StepTimer
