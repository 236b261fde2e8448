/-
What becomes of a run. A call leaves its timer, its generation and its activity alone, and never takes
an abort back; the only run that a call brings into the table has the next name and has not made a
move. A move changes no run but its own.
-/
import StepTimer.Proofs.Run.Hold

namespace StepTimer

/-- What a run may have become by a call. -/
structure Run.IsKin (x x' : Run) : Prop where
  id : x'.id = x.id
  timer : x'.timer = x.timer
  generation : x'.generation = x.generation
  activity : x'.activity = x.activity
  aborted : x.signals.aborted = true → x'.signals.aborted = true

namespace Runner

/-- What a call may have made of what the table says of a run. -/
def Kin (o o' : Option Run) : Prop := ∃ f : Run → Run, (∀ x : Run, x.IsKin (f x)) ∧ o' = o.map f

theorem Kin.refl (o : Option Run) : Kin o o := ⟨fun x => x, fun _ => ⟨rfl, rfl, rfl, rfl, fun h => h⟩, by simp⟩

theorem Kin.trans {o o' o'' : Option Run} (h : Kin o o') (h' : Kin o' o'') : Kin o o'' := by
  obtain ⟨f, hf, rfl⟩ := h
  obtain ⟨g, hg, rfl⟩ := h'
  refine ⟨g ∘ f, fun x => ⟨?_, ?_, ?_, ?_, fun ha => ?_⟩, by rw [Option.map_map]⟩
  · exact (hg (f x)).id.trans (hf x).id
  · exact (hg (f x)).timer.trans (hf x).timer
  · exact (hg (f x)).generation.trans (hf x).generation
  · exact (hg (f x)).activity.trans (hf x).activity
  · exact (hg (f x)).aborted ((hf x).aborted ha)

theorem Kin.of_some {o : Option Run} {x' : Run} (h : Kin o (some x')) : ∃ x, o = some x ∧ x.IsKin x' := by
  obtain ⟨f, hf, h⟩ := h
  obtain ⟨x, hx, rfl⟩ := Option.map_eq_some_iff.1 h.symm
  exact ⟨x, hx, hf x⟩

/-- A signal changes nothing of a run but its signals. -/
theorem Kin.ite (c : Prop) [Decidable c] {f : Signals → Signals}
    (hf : ∀ s, s.aborted = true → (f s).aborted = true) (o : Option Run) :
    Kin o (if c then o.map fun x => { x with signals := f x.signals } else o) := by
  split
  · exact ⟨fun x => { x with signals := f x.signals }, fun x => ⟨rfl, rfl, rfl, rfl, hf x.signals⟩, rfl⟩
  · exact .refl o

variable (r : Runner) (now : Instant) (run : RunId)

theorem kin_stop (id : TimerId) : Kin (r.run? run) ((r.stop id now).run? run) := by
  rw [run?_stop]
  exact Kin.ite _ (f := fun s => { s with aborted := true }) (fun _ _ => rfl) _

theorem kin_resume (id : TimerId) : Kin (r.run? run) ((r.resume id now).run? run) := by
  rw [run?_resume]
  exact Kin.ite _ (f := fun s => { s with paused := false }) (fun _ h => h) _

theorem kin_pause (t : Timer) : Kin (r.run? run) ((r.pause t now).run? run) := by
  by_cases hm : t.mode = .stopwatch
  · unfold pause
    rw [if_pos hm, run?_update]
    exact .refl _
  · rw [run?_pause r now hm]
    exact Kin.ite _ (f := fun s => { s with paused := true }) (fun _ h => h) _

theorem kin_stopAll : Kin (r.run? run) ((r.stopAll now).run? run) :=
  stopAll_induction r now (P := fun r' => Kin (r.run? run) (r'.run? run)) (.refl _)
    (fun r' id h => h.trans (kin_stop r' now run id)) fun _ h => h

/-- The run that `beginRun` brings in. -/
def IsNew (r r' : Runner) (t : Timer) (run : RunId) : Prop :=
  run = r.nextRun ∧ r'.nextRun = r.nextRun + 1 ∧
    ∃ g, r'.run? run = some ⟨run, t.id, g, {}, .ready t.steps⟩

theorem kin_beginRun_of_ne (t : Timer) (hrun : r.nextRun ≠ run) : Kin (r.run? run) ((r.beginRun t now).run? run) := by
  rw [run?_beginRun, if_neg hrun, Option.or_none]
  exact Kin.ite _ (f := fun s => { s with aborted := true }) (fun _ _ => rfl) _

variable {r}

theorem kin_beginRun (h : r.run? r.nextRun = none) (t : Timer) :
    Kin (r.run? run) ((r.beginRun t now).run? run) ∨ r.IsNew (r.beginRun t now) t run := by
  by_cases hrun : r.nextRun = run
  · refine Or.inr ⟨hrun.symm, rfl, ((r.entry? t.id).getD {}).generation + 1, ?_⟩
    rw [run?_beginRun, if_pos hrun, ← hrun, h]
    simp
  · exact Or.inl (kin_beginRun_of_ne r now run t hrun)

/-- A call leaves the runs of the table as they are but for their signals, and begins at most one. -/
theorem kin_perform (h : r.run? r.nextRun = none) (op : Op) :
    Kin (r.run? run) ((r.perform now op).run? run) ∨
      ∃ t, op.timer? = some t ∧ op.starts? = some t.id ∧ r.IsNew (r.perform now op) t run := by
  cases op with
  | start t =>
    show Kin _ ((r.start t now).run? run) ∨ ∃ t', some t = some t' ∧ _ ∧ r.IsNew (r.start t now) t' run
    rcases r.start_cases now t with ⟨-, he⟩ | ⟨-, he | he | he⟩ <;> rw [he]
    · exact Or.inl (.refl _)
    · exact (kin_beginRun now run h t).imp_right fun hn => ⟨t, rfl, rfl, hn⟩
    · exact Or.inl (kin_resume r now run t.id)
    · exact Or.inl (.refl _)
  | restart t =>
    show Kin _ ((r.restart t now).run? run) ∨ ∃ t', some t = some t' ∧ _ ∧ r.IsNew (r.restart t now) t' run
    rcases r.restart_cases now t with ⟨-, he⟩ | ⟨-, he⟩ <;> rw [he]
    · exact Or.inl (.refl _)
    · -- the stop before it gives no name away
      have h' : (r.stop t.id now).run? (r.stop t.id now).nextRun = none := by rw [nextRun_stop, run?_stop, h]; simp
      refine (kin_beginRun now run h' t).imp (kin_stop r now run t.id).trans fun hn => ?_
      exact ⟨t, rfl, rfl, hn.1.trans (nextRun_stop r now t.id), by simp, hn.2.2⟩
  | resume id => exact Or.inl (kin_resume r now run id)
  | pause t => exact Or.inl (kin_pause r now run t)
  | stop id => exact Or.inl (kin_stop r now run id)
  | reset id =>
    refine Or.inl ?_
    show Kin _ (((r.stop id now).update id now RunEntry.resetWatch).run? run)
    rw [run?_update]
    exact kin_stop r now run id
  | mark id name => exact Or.inl (.refl _)
  | forget id =>
    refine Or.inl ?_
    show Kin _ (((r.stop id now).drop id now).run? run)
    rw [run?_drop]
    exact kin_stop r now run id
  | stopAll => exact Or.inl (kin_stopAll r now run)

variable (r)

theorem nextRun_stopAll : (r.stopAll now).nextRun = r.nextRun :=
  stopAll_induction r now (P := fun r' => r'.nextRun = r.nextRun) rfl
    (fun r' id h => (nextRun_stop r' now id).trans h) fun _ h => h

theorem nextRun_le_perform (op : Op) : r.nextRun ≤ (r.perform now op).nextRun := by
  cases op with
  | start t =>
    show r.nextRun ≤ (r.start t now).nextRun
    rcases r.start_cases now t with ⟨-, he⟩ | ⟨-, he | he | he⟩
    · rw [he]; exact Nat.le_refl _
    · rw [he]; exact Nat.le_succ _
    · rw [he]; exact Nat.le_of_eq (by simp [resume])
    · exact Nat.le_of_eq (congrArg nextRun he.symm)
  | restart t =>
    show r.nextRun ≤ (r.restart t now).nextRun
    rcases r.restart_cases now t with ⟨-, he⟩ | ⟨-, he⟩ <;> rw [he]
    · exact Nat.le_refl _
    · rw [nextRun_beginRun, nextRun_stop]; exact Nat.le_succ _
  | pause t =>
    show r.nextRun ≤ (r.pause t now).nextRun
    unfold pause
    split <;> simp
  | stopAll => exact Nat.le_of_eq (nextRun_stopAll r now).symm
  | _ => simp [perform, resume, reset, forget]

variable {r now run}

/-- After a move the run is gone, or it is as it was but for its activity. -/
theorem run?_advance_self {coin : Bool} {r' : Runner} {events : List Event}
    (ha : r.advance run coin now = some (r', events)) :
    ∃ x, r.run? run = some x ∧
      ((x.activity.isDone = true ∧ r'.run? run = none ∧ r'.devices = r.devices ∧ events = []) ∨
        ∃ m, x.activity.advance (r.circumstances x now coin) r.devices = some m ∧
          r'.run? run = some { x with activity := m.next } ∧ r'.devices = m.devices ∧ events = m.events) := by
  obtain ⟨x, hx, hcase⟩ := advance_cases r now ha
  have hid := id_of_run? r hx
  refine ⟨x, hx, ?_⟩
  rcases hcase with ⟨hd, rfl, rfl⟩ | ⟨-, m, hm, rfl, rfl⟩
  · exact Or.inl ⟨hd, by rw [run?_finish, if_pos hid.symm], by simp, rfl⟩
  · refine Or.inr ⟨m, hm, ?_, devices_apply r now x m, rfl⟩
    subst hid
    rw [run?_apply, if_pos rfl, hx]; rfl

variable (r now run)

/-- A move changes no other run. -/
theorem run?_advance_ne {run' : RunId} {coin : Bool} {r' : Runner} {events : List Event}
    (ha : r.advance run coin now = some (r', events)) (hne : run' ≠ run) : r'.run? run' = r.run? run' := by
  obtain ⟨x, hx, ⟨-, rfl, -⟩ | ⟨-, m, -, rfl, -⟩⟩ := advance_cases r now ha
  · rw [run?_finish, id_of_run? r hx, if_neg hne]
  · rw [run?_apply, id_of_run? r hx, if_neg hne]

theorem equipment_advance {coin : Bool} {r' : Runner} {events : List Event}
    (ha : r.advance run coin now = some (r', events)) : r'.equipment = r.equipment := by
  obtain ⟨x, hx, ⟨-, rfl, -⟩ | ⟨-, m, -, rfl, -⟩⟩ := advance_cases r now ha
  · exact equipment_finish r now x
  · exact equipment_apply r now x m

theorem nextRun_advance {coin : Bool} {r' : Runner} {events : List Event}
    (ha : r.advance run coin now = some (r', events)) : r'.nextRun = r.nextRun := by
  obtain ⟨x, hx, ⟨-, rfl, -⟩ | ⟨-, m, -, rfl, -⟩⟩ := advance_cases r now ha
  · exact nextRun_finish r now x
  · exact nextRun_apply r now x m

end Runner

end StepTimer
