/-
Requests that do not succeed. The headline theorem says that a request that is refused leaves the
application as it was, and that one whose timers could not be stored has the effect it would have had
if they had been.
-/
import StepTimer.Proofs.App.Requests

namespace StepTimer.App

variable {α : Type}

/-! ## Storing at the end -/

theorem persist_cases (b : App) :
    (b.store = none ∧ b.persist = (.ok (), b)) ∨
      ∃ folder, b.store = some folder ∧
        b.persist = ((folder.save b.timers).1.mapError .storage, b.keptIn (some (folder.save b.timers).2)) := by
  rcases b with ⟨_, _, _, _, _, _ | folder, _, _⟩
  · exact .inl ⟨rfl, rfl⟩
  · exact .inr ⟨folder, rfl, rfl⟩

theorem stored_eq (b : App) (x : α) : b.stored x = (b.persist.1.map fun _ => x, b.persist.2) := by
  unfold stored
  rcases b.persist with ⟨saved, b'⟩
  rfl

/-- Storing changes nothing but the folder. -/
theorem stored_snd (b : App) (x : α) : (b.stored x).2 = b.keptIn (b.stored x).2.store := by
  rw [stored_eq]
  rcases persist_cases b with ⟨-, h⟩ | ⟨folder, -, h⟩
  · rw [h]; rfl
  · rw [h]; rfl

theorem stored_error {b : App} {x : α} {e : AppError} (h : (b.stored x).1 = .error e) : e.isStorage = true := by
  rw [stored_eq] at h
  rcases persist_cases b with ⟨-, hp⟩ | ⟨folder, -, hp⟩
  · rw [hp] at h; cases h
  · rw [hp] at h
    rcases hs : (folder.save b.timers).1 with err | ⟨⟩
    · rw [hs] at h; cases h; rfl
    · rw [hs] at h; cases h

/-- In a new folder the timers can be stored. -/
theorem stored_new (b : App) (x : α) : ((b.keptIn (some {})).stored x).1 = .ok x := rfl

/-- A request that fails. When it is refused, the timers, the runs and the channel, the last action and
the folder are as before; at most some names were used up. When the timers could not be stored, they
and the runs are what they are with any folder, or none, with which the request succeeds; and it does
succeed with a new folder. -/
theorem failed_requests (a : App) (now : Instant) (c : Command) (e : AppError)
    (failed : (a.perform now c).1 = .error e) :
    (e.isStorage = false → (a.perform now c).2 = { a with ids := (a.perform now c).2.ids }) ∧
      (e.isStorage = true →
        (∃ reply, ((a.keptIn (some {})).perform now c).1 = .ok reply) ∧
          ∀ store reply, ((a.keptIn store).perform now c).1 = .ok reply →
            (a.perform now c).2.timers = ((a.keptIn store).perform now c).2.timers ∧
              (a.perform now c).2.runner = ((a.keptIn store).perform now c).2.runner) := by
  cases comes_perform a now c with
  | refused e' ids early h =>
    have ha : a.perform now c = (.error e', { a with ids := ids }) := h a.store
    rw [ha] at failed ⊢
    cases failed
    exact ⟨fun _ => rfl, fun he => absurd he (by rw [early]; exact Bool.false_ne_true)⟩
  | answered b x same h =>
    have ha : a.perform now c = (.ok x, b.keptIn a.store) := h a.store
    rw [ha] at failed; cases failed
  | stored b x revised h =>
    have ha : a.perform now c = (b.keptIn a.store).stored x := h a.store
    rw [ha] at failed ⊢
    have he := stored_error failed
    refine ⟨fun hne => absurd he (by rw [hne]; exact Bool.false_ne_true), fun _ => ⟨⟨x, ?_⟩, fun store _ _ => ?_⟩⟩
    · simp only [h]; exact stored_new b x
    · simp only [h]
      rw [stored_snd (b.keptIn a.store) x, stored_snd (b.keptIn store) x]
      exact ⟨rfl, rfl⟩

/-- A bakery with a locked timer and a loaf under way, whose folder is missing. -/
def bakery : App where
  ids := StepTree.dollars 5
  timers := [{ id := "bread", name := "Bread", steps := [.leaf "bake" (.waitUntil "8:00" .am)], locked := true }]
  runner := { equipment := ⟨fun _ _ => .endless, .off, "bell", fun t => ⟨t.millis⟩⟩ }
  store := some { isThere := false }

/-- The loaf is put in; a step is not added to the locked timer, and a stopwatch that is made is not
stored. -/
theorem failed_requests_bakery :
    let a := (bakery.perform ⟨0⟩ (.start "bread")).2
    let locked := a.perform ⟨1⟩ (.insertStep "bread" .rootEnd (.action .unknown))
    let made := a.perform ⟨2⟩ (.create "Proof" .stopwatch)
    locked.1 = .error (.locked "bread") ∧ locked.2 = { a with ids := locked.2.ids } ∧
      made.1 = .error (.storage .access) ∧ (made.2.timers.map (·.name)) = ["Bread", "Proof"] ∧
      made.2.timers = ((a.keptIn (some {})).perform ⟨2⟩ (.create "Proof" .stopwatch)).2.timers := by
  intro a locked made
  have hl : locked.1 = .error (.locked "bread") := rfl
  have hm : made.1 = .error (.storage .access) := rfl
  obtain ⟨⟨reply, hr⟩, same⟩ := (failed_requests a ⟨2⟩ (.create "Proof" .stopwatch) _ hm).2 rfl
  exact ⟨hl, (failed_requests a ⟨1⟩ _ _ hl).1 rfl, hm, by decide +kernel, (same _ reply hr).1⟩

end StepTimer.App
