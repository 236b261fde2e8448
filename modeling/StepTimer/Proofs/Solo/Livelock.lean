/-
Whether an alert comes to its end. Nothing in its loop takes time by itself: the countdown ends a round only
when the clock moves on, and the clock moves on only when the run waits. If each round is paced, by the
interval or by something in it, the alert ends in time; if not, its rounds can follow each other at one instant
for ever, and it never ends (`Spins`).
-/
import StepTimer.Proofs.Solo.Spinning

namespace StepTimer

namespace Course

open Activity

variable {n : Nat}

/-- Every alert makes progress whose rounds are paced, and only those do. A run that nothing disturbs and that
stays in an alert, with a notifier that answers, ends it in time, or gives it up with the round of another alert
that it is in, or begins rounds that nothing paces for ever while its clock stands still. The last cannot be
when all alerts in the step are paced, by an interval or by a step or a sound that takes time. But an alert
without interval whose sound takes no time never ends. -/
theorem alert_progress {w₁ : Course} {id : StepId} {alert : Alert} {children : List StepTimer.Step} {h : Hearing}
    {delay : Nat} (h₁ : w₁.run.activity.inner n = some (.entering (.block id (.notifyUntil alert) children)))
    (ho : w₁.Orderly) (hp : w₁.run.signals.paused = false) (hh : h.IsTrue w₁.run.equipment)
    (hanswer : w₁.run.equipment.notifier.answerMs w₁.run.devices.board.calls = some delay)
    (hloops : StepTimer.Step.EachBlockIn (fun frame _ => frame ≠ .loop .infinite) children)
    {f : Nat → Course} (hzero : f 0 = w₁) (hf : ∀ k, (f k).Undisturbed (f (k + 1))) :
    ((∃ e, EndsAfter n f e ∧ max alert.totalMs delay ≤ e ∧ e ≤ max alert.totalMs (delay + min alert.totalMs 250)) ∨
      GivesUp n f ∨ RingsOn n h f) ∧
    (StepTimer.Step.EachBlock (fun frame children => frame.isPaced h children = true) (.block id (.notifyUntil alert) children) →
      ¬ RingsOn n h f) ∧
    (children = [] → alert.IsIdle w₁.run.equipment → 0 < alert.timeout.toNat → w₁.run.equipment.notifier.AnswersAtOnce →
      (¬ ∃ e, EndsAfter n f e) ∧ ∀ k, (∀ j, j ≤ k → (f j).IsUnder n) → (f k).run.now = w₁.run.now) := by
  subst hzero
  have htime := inTime_entering h₁ ho hp hanswer
  refine ⟨?_, fun hpaced => not_ringsOn_of_isPaced hf ho ⟨_, h₁, hpaced⟩, ?_⟩
  · refine (ends_or_ringsOn hf htime ho hh ⟨by simp, hloops⟩).imp_left ?_
    rintro ⟨k, hunder, hdone, e, hnow, hrange⟩
    exact ⟨e, ⟨k, hunder, hdone, hnow⟩, hrange⟩
  · rintro rfl hidle hpos hask
    have hspins : (f 0).IsSpinning n (f 0).run.now :=
      ⟨ho, hp, rfl, _, h₁, .entering id hidle hask hpos, nofun⟩
    -- as long as the run stays in the alert it spins
    have hall (k : Nat) (hunder : ∀ j, j ≤ k → (f j).IsUnder n) : (f k).IsSpinning n (f 0).run.now := by
      induction k with
      | zero => exact hspins
      | succ k ih =>
        refine ((ih fun j hj => hunder j (by omega)).step (hf k)).resolve_right ?_
        rintro ⟨hnone, -⟩
        obtain ⟨b, hb, -⟩ := hunder (k + 1) (Nat.le_refl _)
        rw [hnone] at hb
        cases hb
    refine ⟨?_, fun k hunder => (hall k hunder).now⟩
    rintro ⟨e, k, hunder, hdone, -⟩
    rcases (hall k hunder).step (hf k) with hnext | ⟨hnone, -⟩
    · obtain ⟨b, hb, hspin, -⟩ := hnext.spins
      rw [hdone] at hb
      cases hb
      cases hspin
    · rw [hdone] at hnone
      cases hnone

/-- A bell whose sound takes no time, and that is to ring for a second without interval. -/
def mutedBell : Course :=
  (⟨.ofSteps ⟨fun _ _ => .lasts 0, .off, "", fun _ => ⟨0⟩⟩
    [.block "ring" (.notifyUntil { title := "Tea", timeoutMs := some 1000 }) []], 0, []⟩ : Course).goOn 1

/-- The bell rings on at the instant at which it begins, and never ends. -/
theorem alert_progress_mutedBell :
    (¬ ∃ e, EndsAfter 1 (mutedBell.follow fun _ => none) e) ∧ RingsOn 1 ⟨fun _ => false, ""⟩ (mutedBell.follow fun _ => none) := by
  have hentered : mutedBell.run.activity.inner 1 = some (.entering _) := rfl
  have horderly : mutedBell.Orderly := ⟨rfl, nofun, ⟨⟨nofun, nofun⟩, nofun⟩⟩
  have hidle : Alert.IsIdle { title := "Tea", timeoutMs := some 1000 } mutedBell.run.equipment :=
    ⟨by decide +kernel, fun _ => rfl⟩
  have hspin : mutedBell.IsSpinning 1 mutedBell.run.now :=
    ⟨horderly, rfl, rfl, _, hentered, .entering _ hidle (fun _ => ⟨rfl, rfl⟩) (by decide), nofun⟩
  have hfollow (k : Nat) : (mutedBell.follow (fun _ => none) k).Undisturbed (mutedBell.follow (fun _ => none) (k + 1)) := by
    obtain ⟨-, m, hm, hnext⟩ := hspin.follow k
    exact hnext ▸ .move true hm
  obtain ⟨hends, -, hnever⟩ := alert_progress hentered horderly rfl (h := ⟨fun _ => false, ""⟩) ⟨nofun, rfl⟩ (show _ = some 0 from rfl)
    trivial rfl hfollow
  obtain ⟨hno, -⟩ := hnever rfl hidle (by decide) fun _ => ⟨rfl, rfl⟩
  refine ⟨hno, (hends.resolve_left ?_).resolve_left ?_⟩
  · rintro ⟨e, hend, -⟩
    exact hno ⟨e, hend⟩
  · rintro ⟨k, -, -, hround⟩
    cases hround

end Course

end StepTimer
