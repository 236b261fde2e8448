/-
The call to the notifier that a run is suspended in. Only steps that are not in a round of an alert
count here: the countdown beside a round gives the round up, with whatever call it is in. A call is
begun by a step that has just become active, or follows on a permission that was granted.
-/
import StepTimer.Proofs.Engine.Moves

namespace StepTimer

/-- A call to the notifier, and the instant at which it is given up at the latest, if it is ever. -/
structure Awaited where
  phase : NoticePhase
  grace : Option Instant

namespace Awaited

/-- The call has returned or is given up. -/
def IsOver (v : Awaited) (now : Instant) : Prop :=
  ∃ t, (v.phase.due = some t ∨ v.grace = some t) ∧ t.nanos ≤ now.nanos

/-- A call that shows the notification, made at an instant. -/
structure IsShowing (v : Awaited) (now : Instant) : Prop where
  last : v.phase.isGranted = false
  due : ∀ t, v.phase.due = some t → now.nanos ≤ t.nanos

/-- A call that a step has just made. -/
structure IsFresh (v : Awaited) (now : Instant) : Prop where
  due : ∀ t, v.phase.due = some t → now.nanos ≤ t.nanos
  grace : ∀ t, v.grace = some t → t = now.plusMillis 2000

end Awaited

theorem Circumstances.hasCome_iff {c : Circumstances} {o : Option Instant} :
    c.hasCome o = true ↔ ∃ t, o = some t ∧ t.nanos ≤ c.now.nanos := by
  cases o <;> simp [hasCome]

theorem Instant.le_plusMillis (t : Instant) (ms : Nat) : t.nanos ≤ (t.plusMillis ms).nanos :=
  Nat.le_add_right _ _

namespace Activity

/-- The call to the notifier that an activity is suspended in, outside of the rounds of alerts. -/
def awaits? : Activity → Option Awaited
  | within current _ => current.awaits?
  | loopPass _ _ _ current => current.awaits?
  | notifying _ phase grace => some ⟨phase, some grace⟩
  | announcing _ _ _ _ phase => some ⟨phase, none⟩
  | _ => none

variable {c : Circumstances} {d : Devices} {m : Move}

theorem awaits?_wake (a : Activity) : a.wake.awaits? = a.awaits? := by
  induction a with
  | within current rest ih => exact ih
  | loopPass count children passes current ih => exact ih
  | _ => rfl

theorem isDone_of_awaits {a : Activity} {v : Awaited} (h : a.awaits? = some v) : a.isDone = false := by
  cases a with
  | done => cases h
  | _ => rfl

/-- A call that is awaited will wake its run when it returns, and when it is given up. -/
theorem mem_alarms_of_awaits {a : Activity} {v : Awaited} (h : a.awaits? = some v) {t : Instant}
    (ht : v.phase.due = some t ∨ v.grace = some t) : t ∈ a.alarms := by
  induction a with
  | within current rest ih => exact ih h
  | loopPass count children passes current ih => exact ih h
  | notifying n phase grace =>
    cases h
    cases phase with
    | asking due permission =>
      rcases ht with ht | ht <;> cases ht <;> simp [alarms]
    | presenting due fails =>
      rcases ht with ht | ht <;> cases ht <;> simp [alarms]
  | announcing id alert children countdown phase =>
    cases h
    cases phase with
    | asking due permission => rcases ht with ht | ht <;> cases ht; simp [alarms]
    | presenting due fails => rcases ht with ht | ht <;> cases ht; simp [alarms]
  | _ => cases h

/-- A run that is suspended in a call does not go on before the call is over. -/
theorem isOver_of_advance {a : Activity} {v : Awaited} (h : a.advance c d = some m) (hv : a.awaits? = some v) :
    v.IsOver c.now := by
  induction a generalizing m with
  | within current rest ih =>
    rcases advance_within h with ⟨hd, -⟩ | ⟨m', hm', -⟩
    · have hn : current.isDone = false := isDone_of_awaits hv
      rw [hn] at hd; cases hd
    · exact ih hm' hv
  | loopPass count children passes current ih =>
    rcases advance_loopPass h with ⟨hd, -⟩ | ⟨m', hm', -⟩
    · have hn : current.isDone = false := isDone_of_awaits hv
      rw [hn] at hd; cases hd
    · exact ih hm' hv
  | notifying n phase grace =>
    cases hv
    simp only [advance, advanceNotice] at h
    cases hp : phase.advance c d with
    | some nm =>
      obtain ⟨t, ht, hle⟩ := Circumstances.hasCome_iff.1 (NoticePhase.advance_cases hp).1
      exact ⟨t, Or.inl ht, hle⟩
    | none =>
      rw [hp] at h
      simp only at h
      split at h
      · rename_i hg; exact ⟨grace, Or.inr rfl, hg⟩
      · cases h
  | announcing id alert children countdown phase =>
    cases hv
    obtain ⟨nm, hp, -⟩ := Option.map_eq_some_iff.1 h
    obtain ⟨t, ht, hle⟩ := Circumstances.hasCome_iff.1 (NoticePhase.advance_cases hp).1
    exact ⟨t, Or.inl ht, hle⟩
  | _ => cases hv

theorem isSome_advance_of_isOver {a : Activity} {v : Awaited} (hv : a.awaits? = some v) (ho : v.IsOver c.now) :
    (a.advance c d).isSome := by
  induction a with
  | within current rest ih =>
    simp only [advance]
    split
    · rfl
    · simpa using ih hv
  | loopPass count children passes current ih =>
    simp only [advance]
    split
    · rfl
    · simpa using ih hv
  | notifying n phase grace =>
    cases hv
    simp only [advance, advanceNotice]
    cases hp : phase.advance c d with
    | some nm => cases nm <;> rfl
    | none =>
      obtain ⟨t, ht | ht, hle⟩ := ho
      · rw [NoticePhase.advance_eq_none, ← Bool.not_eq_true, Circumstances.hasCome_iff] at hp
        exact absurd ⟨t, ht, hle⟩ hp
      · cases ht
        simp [hle]
  | announcing id alert children countdown phase =>
    cases hv
    cases hp : phase.advance c d with
    | some nm => simp [advance, advanceAnnouncement, hp]
    | none =>
      obtain ⟨t, ht | ht, hle⟩ := ho
      · rw [NoticePhase.advance_eq_none, ← Bool.not_eq_true, Circumstances.hasCome_iff] at hp
        exact absurd ⟨t, ht, hle⟩ hp
      · cases ht
  | _ => cases hv

/-! ## Where awaited calls come from -/

/-- What a move may have made of what a run awaits. A run that is guarded makes no new call. -/
inductive AwaitMove (now : Instant) (guarded : Bool) : Option Awaited → Option Awaited → Prop
  | ends (o : Option Awaited) : AwaitMove now guarded o none
  | fresh {v : Awaited} (h : v.IsFresh now) (hg : guarded = false) : AwaitMove now guarded none (some v)
  | follows {v v' : Awaited} (hg : v.phase.isGranted = true) (hv : v'.grace = v.grace) (h : v'.IsShowing now) :
      AwaitMove now guarded (some v) (some v')

theorem AwaitMove.of_some {now : Instant} {guarded : Bool} {o : Option Awaited} {v : Awaited}
    (h : AwaitMove now guarded o (some v)) :
    (o = none ∧ v.IsFresh now ∧ guarded = false) ∨
      ∃ u, o = some u ∧ u.phase.isGranted = true ∧ v.grace = u.grace ∧ v.IsShowing now := by
  cases h with
  | fresh h hg => exact Or.inl ⟨rfl, h, hg⟩
  | follows hg hv h => exact Or.inr ⟨_, rfl, hg, hv, h⟩

theorem due_map_plusMillis {now : Instant} {delay : Option Nat} {t : Instant}
    (h : delay.map now.plusMillis = some t) : now.nanos ≤ t.nanos := by
  obtain ⟨ms, -, rfl⟩ := Option.map_eq_some_iff.1 h
  exact now.le_plusMillis ms

theorem beginStep_awaits (s : Step) : AwaitMove c.now false none (beginStep c d s).next.awaits? := by
  cases s with
  | leaf id action =>
    cases action with
    | notify title body =>
      refine .fresh ⟨fun t ht => due_map_plusMillis ht, fun t ht => ?_⟩ rfl
      cases ht; rfl
    | _ => exact .ends none
  | block id frame children =>
    cases frame with
    | notifyUntil alert =>
      refine .fresh ⟨fun t ht => due_map_plusMillis ht, fun t ht => ?_⟩ rfl
      cases ht
    | loop count =>
      have hnone : (beginStep c d (.block id (.loop count) children)).next.awaits? = none := by
        rcases beginLoop_cases id count children c d with h | ⟨-, ⟨-, h⟩ | ⟨-, h⟩⟩ <;> rw [h] <;> rfl
      rw [hnone]
      exact .ends none

theorem afterRound_awaits (r : Raised) (countdown : Countdown) (events : List Event) :
    (r.afterRound countdown c d events).next.awaits? = none := by
  obtain ⟨report, -, ⟨t, -, -, h⟩ | ⟨countdown', h⟩⟩ := afterRound_cases r countdown c d events <;> rw [h] <;> rfl

theorem advance_awaits {a : Activity} (h : a.advance c d = some m) : AwaitMove c.now a.isGuarded a.awaits? m.next.awaits? := by
  induction a generalizing m with
  | done => cases h
  | ready steps =>
    rcases advance_ready h with rfl | ⟨-, rfl | ⟨s, rest, rfl, rfl⟩⟩ <;> exact .ends _
  | held steps =>
    rcases advance_held h with rfl | ⟨-, s, rest, rfl, rfl⟩ <;> exact .ends _
  | within current rest ih =>
    rcases advance_within h with ⟨-, rfl⟩ | ⟨m', hm', rfl⟩
    · exact .ends _
    · have hmove := ih hm'
      exact hmove
  | entering s => cases h; exact beginStep_awaits s
  | counting id t =>
    obtain ⟨-, ⟨hnext, -⟩ | ⟨tm, t', -, -, hnext, -⟩⟩ := advance_counting h <;> rw [hnext] <;> exact .ends _
  | sound url replays phase =>
    have hnone : m.next.awaits? = none := by
      rcases advance_sound h with ⟨-, rfl⟩ | ⟨-, rfl⟩ | ⟨-, rfl⟩ | ⟨call, how, -, -, rfl⟩
      · rfl
      · rfl
      · split <;> rfl
      · dsimp only; split <;> rfl
    rw [hnone]
    exact .ends _
  | notifying n phase grace =>
    rcases advance_notifying h with ⟨due, delay, fails, rfl, rfl⟩ | ⟨hnext, -⟩
    · exact .follows rfl rfl ⟨rfl, fun t ht => due_map_plusMillis ht⟩
    · rw [hnext]; exact .ends _
  | announcing id alert children countdown phase =>
    rcases advance_announcing h with ⟨due, delay, fails, rfl, rfl⟩ | ⟨notice, hnext, -⟩
    · exact .follows rfl rfl ⟨rfl, fun t ht => due_map_plusMillis ht⟩
    · rw [hnext]; exact .ends _
  | alertTop r countdown =>
    cases h
    rcases alertTop_cases r countdown c d with h | ⟨-, ⟨countdown', h⟩ | ⟨t, -, h⟩⟩ <;> rw [h] <;> exact .ends _
  | alertHeld r countdown => rw [advance_alertHeld h]; exact .ends _
  | alertRound r t current ih =>
    rcases advance_alertRound h with ⟨-, rfl⟩ | ⟨m', hm', rfl⟩ | h
    · rw [afterRound_awaits]; exact .ends _
    -- a call in the round holds the round and not the run: the countdown beside it can end it
    · exact .ends _
    · rcases beside_cases h with ⟨countdown, rfl⟩ | ⟨tm, t', -, -, hnext, -⟩
      · rw [afterRound_awaits]; exact .ends _
      · rw [hnext]; exact .ends _
  | alertGap r t =>
    obtain ⟨-, ⟨countdown, hnext, -⟩ | ⟨tm, t', -, -, hnext, -⟩⟩ := advance_alertGap h <;> rw [hnext] <;>
      exact .ends _
  | loopTop count children passes =>
    cases h
    rcases loopTop_cases count children passes c d with h | ⟨-, h⟩ <;> rw [h] <;> exact .ends _
  | loopPass count children passes current ih =>
    rcases advance_loopPass h with ⟨-, rfl⟩ | ⟨m', hm', rfl⟩
    · exact .ends _
    · have hmove := ih hm'
      exact hmove
  | loopYield count children passes => cases h
  | parked => rw [advance_parked h]; exact .ends _

end Activity

end StepTimer
