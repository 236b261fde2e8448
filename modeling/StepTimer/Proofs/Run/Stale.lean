/-
Runs that were superseded. A run that the entry of its timer does not hold has been aborted, and
stays so: whatever it is doing and whatever it reports on its way out, no entry changes and nothing
is announced. That does not rest on the generations, which begin again when a timer is forgotten.
-/
import StepTimer.Proofs.Run.Kin

namespace StepTimer

namespace Runner

variable {r : Runner} (now : Instant)

/-! ## Aborted runs -/

/-- A run of which nothing is to come: it has left the table or was aborted. -/
structure Spent (r : Runner) (run : RunId) : Prop where
  given : run < r.nextRun
  live : r.live? run = none

theorem live?_eq_none {run : RunId} : r.live? run = none ↔ ∀ x, r.run? run = some x → x.signals.aborted = true := by
  unfold live?
  cases r.run? run with
  | none => simp
  | some x => cases x.signals.aborted <;> simp

theorem spent_of_stale (h : r.Tied) {x : Run} (hx : r.run? x.id = some x)
    (hs : r.token? x.timer ≠ some x.id) : r.Spent x.id := by
  refine ⟨h.lt_nextRun hx, live?_eq_none.2 fun x' hx' => ?_⟩
  rw [hx] at hx'; cases hx'
  exact h.aborted_of_stale hx hs

/-- No entry holds a run of which nothing is to come. -/
theorem Spent.token_ne {run : RunId} (hs : r.Spent run) (h : r.Tied) (id : TimerId) : r.token? id ≠ some run := by
  intro ht
  obtain ⟨g, hg⟩ := held?_of_token? ht
  rw [h.held, hs.live] at hg
  cases hg

theorem Spent.perform {run : RunId} (hs : r.Spent run) (h : r.Tied) (op : Op) : (r.perform now op).Spent run := by
  refine ⟨Nat.lt_of_lt_of_le hs.given (nextRun_le_perform r now op), live?_eq_none.2 fun x' hx' => ?_⟩
  rcases kin_perform now run h.unused op with hk | ⟨t, -, -, hn⟩
  · rw [hx'] at hk
    obtain ⟨x, hx, hkin⟩ := hk.of_some
    exact hkin.aborted (live?_eq_none.1 hs.live x hx)
  · -- the name of a new run has not been given before
    exact absurd hn.1 (Nat.ne_of_lt hs.given)

theorem Spent.advance {run run' : RunId} (hs : r.Spent run) {coin : Bool} {r' : Runner} {events : List Event}
    (ha : r.advance run' coin now = some (r', events)) : r'.Spent run := by
  refine ⟨by rw [nextRun_advance r now run' ha]; exact hs.given, live?_eq_none.2 fun y hy => ?_⟩
  by_cases hne : run = run'
  · subst hne
    obtain ⟨x, hx, ⟨-, hgone, -⟩ | ⟨m, -, hnext, -⟩⟩ := run?_advance_self ha
    · rw [hgone] at hy; cases hy
    · rw [hnext] at hy; cases hy
      exact live?_eq_none.1 hs.live x hx
  · rw [run?_advance_ne r now run' ha hne] at hy
    exact live?_eq_none.1 hs.live y hy

theorem Spent.wake {run : RunId} (hs : r.Spent run) (run' : RunId) : (r.wake run').Spent run := by
  refine ⟨hs.given, live?_eq_none.2 fun y hy => ?_⟩
  obtain ⟨x, hx, rfl | rfl⟩ := run_of_wake r hy
  · exact live?_eq_none.1 hs.live y hx
  · exact live?_eq_none.1 hs.live x hx

/-- A move of an aborted run touches no entry, and nothing is announced: not by a report, and not
when the run comes to its end. -/
theorem advance_of_aborted {run : RunId} {coin : Bool} {r' : Runner} {events : List Event}
    (hs : r.live? run = none) (ha : r.advance run coin now = some (r', events)) :
    r'.entries = r.entries ∧ r'.announced = r.announced := by
  obtain ⟨x, hx, hcase⟩ := advance_cases r now ha
  have hab : x.signals.aborted = true := live?_eq_none.1 hs x hx
  rcases hcase with ⟨-, rfl, -⟩ | ⟨-, m, -, rfl, -⟩
  · unfold finish
    rw [if_pos hab]
    exact ⟨rfl, rfl⟩
  · rw [apply_of_aborted r now x m hab]
    exact ⟨rfl, rfl⟩

/-! ## Forgotten timers -/

theorem announced_update (id : TimerId) (f : RunEntry → RunEntry) :
    (r.update id now f).announced =
      ((r.entry? id).map fun e => (now.millis, RunUpdate.new id ((f e).snapshot now))).toList ++
        r.announced := by
  unfold update
  cases r.entry? id <;> rfl

/-- From one table to another, a timer has no entry and is not spoken of. -/
structure Silent (id : TimerId) (r r' : Runner) : Prop where
  absent : r'.entry? id = none
  news : ∃ news, r'.announced = news ++ r.announced ∧ ∀ p ∈ news, p.2.timerId ≠ id

variable {id : TimerId}

theorem Silent.of_eq {r r' : Runner} (h : r.entry? id = none) (he : r'.entry? id = r.entry? id)
    (ha : r'.announced = r.announced) : Silent id r r' :=
  ⟨he.trans h, [], by simpa using ha, by simp⟩

theorem Silent.trans {r r' r'' : Runner} (h : Silent id r r') (h' : Silent id r' r'') : Silent id r r'' := by
  obtain ⟨news, hn, hid⟩ := h.news
  obtain ⟨news', hn', hid'⟩ := h'.news
  refine ⟨h'.absent, news' ++ news, by rw [hn', hn, List.append_assoc], fun p hp => ?_⟩
  rcases List.mem_append.1 hp with hp | hp
  · exact hid' p hp
  · exact hid p hp

theorem silent_refl (h : r.entry? id = none) : Silent id r r := .of_eq h rfl rfl

/-- A timer without an entry is not given one by an update of an entry. -/
theorem silent_update (h : r.entry? id = none) (id' : TimerId) (f : RunEntry → RunEntry) :
    Silent id r (r.update id' now f) := by
  by_cases hid : id' = id
  · subst hid
    rw [update_of_none r now f h]
    exact silent_refl h
  · refine ⟨by rw [entry?_update, if_neg (Ne.symm hid), h], _, announced_update now id' f, fun p hp => ?_⟩
    rw [Option.mem_toList, Option.map_eq_some_iff] at hp
    obtain ⟨e, -, rfl⟩ := hp
    exact hid

theorem silent_upsert (h : r.entry? id = none) {id' : TimerId} (hid : id' ≠ id) (f : RunEntry → RunEntry) :
    Silent id r (r.upsert id' now f) := by
  refine ⟨by rw [entry?_upsert, if_neg (Ne.symm hid), h], [_], rfl, ?_⟩
  rintro p (_ | ⟨_, ⟨⟩⟩)
  exact hid

theorem silent_signalAny (h : r.entry? id = none) (run : Option RunId) (f : Signals → Signals) :
    Silent id r (r.signalAny run f) :=
  .of_eq h (by simp) (by simp)

theorem silent_silenceAny (h : r.entry? id = none) (run : Option RunId) : Silent id r (r.silenceAny run) :=
  .of_eq h (by simp) (by simp)

theorem silent_stop (h : r.entry? id = none) (id' : TimerId) : Silent id r (r.stop id' now) := by
  unfold stop
  have h₁ := silent_signalAny h ((r.entry? id').bind (·.token)) fun s => { s with aborted := true }
  have h₂ := h₁.trans (silent_update now h₁.absent id' fun e => e.stopped now)
  exact h₂.trans (silent_silenceAny h₂.absent _)

theorem silent_resume (h : r.entry? id = none) (id' : TimerId) : Silent id r (r.resume id' now) := by
  unfold resume
  have h₁ := silent_signalAny h ((r.entry? id').bind (·.resumable)) fun s => { s with paused := false }
  exact h₁.trans (silent_update now h₁.absent id' RunEntry.resumed)

theorem silent_pause (h : r.entry? id = none) (t : Timer) : Silent id r (r.pause t now) := by
  unfold pause
  split
  · exact silent_update now h t.id _
  · have h₁ := silent_signalAny h ((r.entry? t.id).bind (·.pausable)) fun s => { s with paused := true }
    have h₂ := h₁.trans (silent_update now h₁.absent t.id RunEntry.paused)
    exact h₂.trans (silent_silenceAny h₂.absent _)

theorem silent_beginRun (h : r.entry? id = none) {t : Timer} (hid : t.id ≠ id) :
    Silent id r (r.beginRun t now) := by
  have h₁ := silent_signalAny h (r.token? t.id) fun s => { s with aborted := true }
  have h₂ := h₁.trans (silent_upsert now h₁.absent hid
    fun e => e.begun r.nextRun (t.steps.head?.map Step.id))
  exact ⟨h₂.absent, h₂.news⟩

theorem silent_drop (h : r.entry? id = none) (id' : TimerId) : Silent id r (r.drop id' now) := by
  unfold drop
  split
  · rename_i hsome
    have hid : id ≠ id' := by rintro rfl; rw [h] at hsome; cases hsome
    refine ⟨by rw [entry?_announce, entry?_dropEntry, if_neg hid, h], [_], rfl, ?_⟩
    rintro p (_ | ⟨_, ⟨⟩⟩)
    exact hid.symm
  · exact silent_refl h

theorem silent_stopAll (h : r.entry? id = none) : Silent id r (r.stopAll now) :=
  stopAll_induction r now (P := fun r' => Silent id r r') (silent_refl h)
    (fun _ id' h => h.trans (silent_stop now h.absent id')) fun _ h => ⟨h.absent, h.news⟩

theorem silent_perform (h : r.entry? id = none) {op : Op} (hop : op.starts? ≠ some id) :
    Silent id r (r.perform now op) := by
  cases op with
  | start t =>
    have hid : t.id ≠ id := fun heq => hop (congrArg some heq)
    show Silent id r (r.start t now)
    rcases r.start_cases now t with ⟨-, he⟩ | ⟨-, he | he | he⟩ <;> rw [he]
    · exact silent_upsert now h hid _
    · exact silent_beginRun now h hid
    · exact silent_resume now h t.id
    · exact silent_refl h
  | restart t =>
    have hid : t.id ≠ id := fun heq => hop (congrArg some heq)
    show Silent id r (r.restart t now)
    rcases r.restart_cases now t with ⟨-, he⟩ | ⟨-, he⟩ <;> rw [he]
    · exact silent_upsert now h hid _
    · have h₁ := silent_stop now h t.id
      exact h₁.trans (silent_beginRun now h₁.absent hid)
  | resume id' => exact silent_resume now h id'
  | pause t => exact silent_pause now h t
  | stop id' => exact silent_stop now h id'
  | reset id' =>
    have h₁ := silent_stop now h id'
    exact h₁.trans (silent_update now h₁.absent id' RunEntry.resetWatch)
  | mark id' name => exact silent_refl h
  | forget id' =>
    have h₁ := silent_stop now h id'
    exact h₁.trans (silent_drop now h₁.absent id')
  | stopAll => exact silent_stopAll now h

/-- No run speaks of a timer that has no entry, live or not. -/
theorem silent_advance (h : r.entry? id = none) {run : RunId} {coin : Bool} {r' : Runner}
    {events : List Event} (ha : r.advance run coin now = some (r', events)) : Silent id r r' := by
  obtain ⟨x, hx, ⟨-, rfl, -⟩ | ⟨-, m, -, rfl, -⟩⟩ := advance_cases r now ha
  · have hgone : Silent id r { r with runs := r.runs.filter fun y => y.id ≠ x.id } := .of_eq h rfl rfl
    unfold finish
    split
    · exact hgone
    · exact hgone.trans (silent_update now hgone.absent x.timer _)
  · refine apply_induction r now x m (.of_eq h rfl rfl) fun r' step remaining _ hr => ?_
    unfold report
    split
    · exact hr
    · exact hr.trans (silent_update now hr.absent x.timer _)

theorem entry?_forget (r : Runner) : Runner.entry? (r.forget id now) id = none := by
  unfold forget
  rw [entry?_drop, if_pos rfl]

/-- A timer that had an entry is announced to be forgotten, after all else. -/
theorem announced_forget (h : (r.entry? id).isSome) :
    (r.forget id now).announced.head? = some (now.millis, .dropped id) := by
  have hstop : (Runner.entry? (r.stop id now) id).isSome := by
    rw [entry?_stop, if_pos rfl, Option.isSome_map]; exact h
  unfold forget drop
  rw [if_pos hstop]
  rfl

end Runner

/-! ## Histories -/

namespace World

open Runner (Op)

theorem Later.tied {ok : Op → Prop} {w w' : World} (h : w.runner.Tied) (hl : Later ok w w') :
    w'.runner.Tied := by
  induction hl with
  | refl => exact h
  | tail _ hs ih => exact hs.tied ih

theorem Later.spent {ok : Op → Prop} {w w' : World} {run : RunId} (h : w.runner.Tied)
    (hr : w.runner.Spent run) (hl : Later ok w w') : w'.runner.Spent run := by
  induction hl with
  | refl => exact hr
  | @tail w₁ w₂ hl hs ih =>
    cases hs with
    | call op _ => exact ih.perform w₁.now (Later.tied h hl) op
    | move run' coin ha => exact ih.advance w₁.now ha
    | wake run' => exact ih.wake run'
    | dismiss => exact ⟨ih.given, ih.live⟩
    | pass t _ => exact ih

theorem Later.silent {id : TimerId} {w w' : World} (h : w.runner.entry? id = none)
    (hl : Later (fun op => op.starts? ≠ some id) w w') : w.runner.Silent id w'.runner := by
  induction hl with
  | refl => exact Runner.silent_refl h
  | @tail w₁ w₂ _ hs ih =>
    cases hs with
    | call op hop => exact ih.trans (Runner.silent_perform w₁.now ih.absent hop)
    | move run coin ha => exact ih.trans (Runner.silent_advance w₁.now ih.absent ha)
    | wake run => exact ih.trans (.of_eq ih.absent rfl rfl)
    | dismiss => exact ih.trans (.of_eq ih.absent rfl rfl)
    | pass t _ => exact ih

/-- Superseded runs are inert. A run that its timer's entry does not hold is never held again, and no
move of it, now or in any later world, changes an entry or has anything announced. And from the
moment when a timer is forgotten, which is announced last, no run and no call has anything announced
of it until it is started or restarted. -/
theorem stale_runs_inert {w : World} (hw : Reached (fun _ => True) w) :
    (∀ x, w.runner.run? x.id = some x → w.runner.token? x.timer ≠ some x.id →
      ∀ w', Later (fun _ => True) w w' →
        (∀ id, w'.runner.token? id ≠ some x.id) ∧
        ∀ coin r events, w'.runner.advance x.id coin w'.now = some (r, events) →
          r.entries = w'.runner.entries ∧ r.announced = w'.runner.announced) ∧
    ∀ id,
      ((w.runner.entry? id).isSome →
        (w.perform (.forget id)).runner.announced.head? = some (w.now.millis, .dropped id)) ∧
      ∀ w', Later (fun op => op.starts? ≠ some id) (w.perform (.forget id)) w' →
        ∃ news, w'.runner.announced = news ++ (w.perform (.forget id)).runner.announced ∧
          ∀ p ∈ news, p.2.timerId ≠ id := by
  have htied := hw.tied
  refine ⟨fun x hx hs w' hl => ?_, fun id => ⟨fun he => ?_, fun w' hl => ?_⟩⟩
  · -- a run is spent once and for all, so its moves are those of an aborted run
    have hspent := hl.spent htied (Runner.spent_of_stale htied hx hs)
    refine ⟨fun id => hspent.token_ne (hl.tied htied) id, fun coin r events ha => ?_⟩
    exact Runner.advance_of_aborted w'.now hspent.live ha
  · exact Runner.announced_forget w.now he
  · exact (hl.silent (Runner.entry?_forget w.now w.runner)).news

/-- A timer that plays one sound. -/
def tea : Timer := { id := "tea", name := "Tea", steps := [.leaf "bell" (.playSound {})] }

/-- The timer was started, forgotten while its run was in the table, and started again. -/
def teaAgain : World :=
  (((initial ⟨fun _ _ => .endless, .off, "", fun _ => ⟨0⟩⟩ ⟨0⟩).perform (.start tea)).perform
    (.forget "tea")).perform (.start tea)

/-- The first run and the entry of the second are both in generation 1. -/
theorem stale_runs_inert_teaAgain :
    ∃ x, teaAgain.runner.run? x.id = some x ∧ x.generation = 1 ∧
      (teaAgain.runner.entry? x.timer).map (·.generation) = some 1 ∧
      teaAgain.runner.token? x.timer ≠ some x.id ∧
      ∀ w', Later (fun _ => True) teaAgain w' →
        ∀ coin r events, w'.runner.advance x.id coin w'.now = some (r, events) →
          r.entries = w'.runner.entries ∧ r.announced = w'.runner.announced := by
  have hw : Reached (fun _ => True) teaAgain :=
    ⟨_, _, ((Relation.ReflTransGen.single (.call (.start tea) trivial)).tail
      (.call (.forget "tea") trivial)).tail (.call (.start tea) trivial)⟩
  refine ⟨⟨1, "tea", 1, { aborted := true }, .ready tea.steps⟩, rfl, rfl, rfl, by decide, fun w' hl => ?_⟩
  exact ((stale_runs_inert hw).1 _ rfl (by decide) w' hl).2

end World

end StepTimer
