/-
Which runs the entries hold. An entry holds a run of a generation (`held?`), and a run that was not
aborted belongs to a timer in a generation (`live?`). The invariant is that these are each other's
inverse: a run that no entry holds is aborted, in whatever generation its timer is by now.
-/
import StepTimer.Proofs.Run.World

namespace StepTimer

/-! ## What the changes of an entry leave alone -/

namespace RunEntry

variable (e : RunEntry) (now : Instant)

@[simp] theorem token_resumed : e.resumed.token = e.token := by unfold resumed; split <;> rfl

@[simp] theorem generation_resumed : e.resumed.generation = e.generation := by
  unfold resumed; split <;> rfl

@[simp] theorem token_paused : e.paused.token = e.token := by unfold paused; split <;> rfl

@[simp] theorem generation_paused : e.paused.generation = e.generation := by
  unfold paused; split <;> rfl

@[simp] theorem token_reported (g : Nat) (step : StepId) (remaining : Option UInt64) :
    (e.reported g step remaining).token = e.token := by unfold reported; split <;> rfl

@[simp] theorem generation_reported (g : Nat) (step : StepId) (remaining : Option UInt64) :
    (e.reported g step remaining).generation = e.generation := by unfold reported; split <;> rfl

/-- The run that an entry holds, with the generation of the entry. -/
def held? : Option (RunId × Nat) := e.token.map fun run => (run, e.generation)

end RunEntry

namespace Runner

variable (r : Runner) (now : Instant)

/-- The run that the entry of a timer holds, with the generation of the entry. -/
def held? (id : TimerId) : Option (RunId × Nat) := (r.entry? id).bind (·.held?)

/-- The timer and the generation of a run that was not aborted. -/
def live? (run : RunId) : Option (TimerId × Nat) :=
  (r.run? run).bind fun x => if x.signals.aborted then none else some (x.timer, x.generation)

/-- The entries hold the runs that were not aborted, each in its generation; names are given once. -/
structure Tied : Prop where
  held : ∀ id run g, r.held? id = some (run, g) ↔ r.live? run = some (id, g)
  fresh : ∀ run, r.nextRun ≤ run → r.run? run = none

variable {r}

theorem token?_eq (id : TimerId) : r.token? id = (r.held? id).map (·.1) := by
  unfold token? held? RunEntry.held?
  cases r.entry? id with
  | none => rfl
  | some e => cases he : e.token <;> simp [he]

theorem held?_of_token? {id : TimerId} {run : RunId} (h : r.token? id = some run) :
    ∃ g, r.held? id = some (run, g) := by
  rw [token?_eq, Option.map_eq_some_iff] at h
  obtain ⟨⟨run', g⟩, hheld, rfl⟩ := h
  exact ⟨g, hheld⟩

theorem live?_of_run? {x : Run} (h : r.run? x.id = some x) (ha : x.signals.aborted = false) :
    r.live? x.id = some (x.timer, x.generation) := by
  simp [live?, h, ha]

theorem live?_eq_some {run : RunId} {id : TimerId} {g : Nat} (h : r.live? run = some (id, g)) :
    ∃ x, r.run? run = some x ∧ x.signals.aborted = false ∧ x.timer = id ∧ x.generation = g := by
  unfold live? at h
  cases hx : r.run? run with
  | none => simp [hx] at h
  | some x =>
    cases ha : x.signals.aborted with
    | true => simp [hx, ha] at h
    | false =>
      simp only [hx, ha, Option.bind_some, Bool.false_eq_true, ↓reduceIte, Option.some.injEq,
        Prod.mk.injEq] at h
      exact ⟨x, rfl, ha, h.1, h.2⟩

theorem Tied.lt_nextRun (h : r.Tied) {run : RunId} {x : Run} (hx : r.run? run = some x) : run < r.nextRun := by
  by_cases hlt : run < r.nextRun
  · exact hlt
  · rw [h.fresh run (Nat.le_of_not_lt hlt)] at hx; cases hx

/-- The next name has not been given yet. -/
theorem Tied.unused (h : r.Tied) : r.run? r.nextRun = none := h.fresh _ (Nat.le_refl _)

/-- The run that an entry holds is in the table and was not aborted. -/
theorem Tied.run_of_token {id : TimerId} {run : RunId} (h : r.Tied) (ht : r.token? id = some run) :
    ∃ x, r.run? run = some x ∧ x.signals.aborted = false ∧ x.timer = id := by
  obtain ⟨g, hg⟩ := held?_of_token? ht
  obtain ⟨x, hx, ha, hid, -⟩ := live?_eq_some ((h.held id run g).1 hg)
  exact ⟨x, hx, ha, hid⟩

/-- The entry of a run that was not aborted holds it, in its generation. -/
theorem Tied.entry_of_live {x : Run} (h : r.Tied) (hx : r.run? x.id = some x)
    (ha : x.signals.aborted = false) :
    ∃ e, r.entry? x.timer = some e ∧ e.token = some x.id ∧ e.generation = x.generation := by
  have hheld := (h.held _ _ _).2 (live?_of_run? hx ha)
  unfold held? at hheld
  obtain ⟨e, he, hh⟩ := Option.bind_eq_some_iff.1 hheld
  unfold RunEntry.held? at hh
  obtain ⟨run, hrun, heq⟩ := Option.map_eq_some_iff.1 hh
  rw [Prod.mk.injEq] at heq
  exact ⟨e, he, hrun.trans (congrArg some heq.1), heq.2⟩

/-- A run that the entry of its timer does not hold was aborted. -/
theorem Tied.aborted_of_stale {x : Run} (h : r.Tied) (hx : r.run? x.id = some x)
    (hs : r.token? x.timer ≠ some x.id) : x.signals.aborted = true := by
  cases ha : x.signals.aborted with
  | true => rfl
  | false =>
    obtain ⟨e, he, ht, -⟩ := h.entry_of_live hx ha
    exact absurd (r.token?_of_entry? he ht) hs

/-- Two timers never hold the same run. -/
theorem Tied.timer_unique {id id' : TimerId} {run : RunId} (h : r.Tied) (ht : r.token? id = some run)
    (ht' : r.token? id' = some run) : id = id' := by
  obtain ⟨x, hx, -, hid⟩ := h.run_of_token ht
  obtain ⟨x', hx', -, hid'⟩ := h.run_of_token ht'
  rw [hx] at hx'; cases hx'
  rw [← hid, ← hid']

/-! ## Changes that keep the runs where they are -/

theorem Tied.of_eq {r' : Runner} (h : r.Tied) (hheld : ∀ id, r'.held? id = r.held? id)
    (hlive : ∀ run, r'.live? run = r.live? run) (hfresh : ∀ run, r'.nextRun ≤ run → r'.run? run = none) :
    r'.Tied :=
  ⟨fun id run g => by rw [hheld, hlive]; exact h.held id run g, hfresh⟩

theorem held?_update (id : TimerId) (f : RunEntry → RunEntry) (hf : ∀ e, (f e).held? = e.held?)
    (id' : TimerId) : (r.update id now f).held? id' = r.held? id' := by
  unfold held?
  rw [entry?_update]
  split
  · rename_i h
    subst h
    cases r.entry? id' with
    | none => rfl
    | some e => exact hf e
  · rfl

theorem live?_update (id : TimerId) (f : RunEntry → RunEntry) (run : RunId) :
    (r.update id now f).live? run = r.live? run := by
  unfold live?; rw [run?_update]

theorem Tied.update (h : r.Tied) (id : TimerId) {f : RunEntry → RunEntry}
    (hf : ∀ e, (f e).held? = e.held?) : (r.update id now f).Tied :=
  h.of_eq (held?_update now id f hf) (live?_update now id f) fun run hr => by
    rw [run?_update]; exact h.fresh run (by simpa using hr)

theorem Tied.upsert (h : r.Tied) (id : TimerId) {f : RunEntry → RunEntry}
    (hf : ∀ e, (f e).held? = e.held?) : (r.upsert id now f).Tied := by
  refine h.of_eq (fun id' => ?_) (fun _ => rfl) h.fresh
  unfold held?
  rw [entry?_upsert]
  split
  · rename_i hid
    subst hid
    cases r.entry? id' with
    | none => exact hf {}
    | some e => exact hf e
  · rfl

/-- A pause or a resume changes no more than the hold of a run. -/
theorem live?_signalAny (run : Option RunId) {f : Signals → Signals}
    (hf : ∀ s, (f s).aborted = s.aborted) (run' : RunId) :
    (r.signalAny run f).live? run' = r.live? run' := by
  unfold live?
  rw [run?_signalAny]
  split
  · cases r.run? run' with
    | none => rfl
    | some x => simp [hf]
  · rfl

theorem Tied.signalAny (h : r.Tied) (run : Option RunId) {f : Signals → Signals}
    (hf : ∀ s, (f s).aborted = s.aborted) : (r.signalAny run f).Tied := by
  refine h.of_eq (fun id => ?_) (live?_signalAny run hf) fun run' hr => ?_
  · unfold held?; rw [entry?_signalAny]
  · rw [run?_signalAny, h.fresh run' (by simpa using hr)]; simp

theorem Tied.silenceAny (h : r.Tied) (run : Option RunId) : (r.silenceAny run).Tied := by
  cases run with
  | none => exact h
  | some run => exact ⟨h.held, h.fresh⟩

theorem Tied.resume (h : r.Tied) (id : TimerId) : (r.resume id now).Tied :=
  (h.signalAny _ (f := fun s => { s with paused := false }) fun _ => rfl).update now id
    fun e => by simp [RunEntry.held?]

theorem Tied.pause (h : r.Tied) (t : Timer) : (r.pause t now).Tied := by
  unfold Runner.pause
  split
  · exact h.update now t.id fun _ => rfl
  · exact ((h.signalAny _ (f := fun s => { s with paused := true }) fun _ => rfl).update now t.id
      fun e => by simp [RunEntry.held?]).silenceAny _

/-! ## Changes that let a run go -/

/-- A timer lets its run go: its entry holds none any more, and the run is live no more. -/
theorem Tied.release {r' : Runner} (h : r.Tied) (id : TimerId)
    (hheld : ∀ id', r'.held? id' = if id' = id then none else r.held? id')
    (hlive : ∀ run, r'.live? run = if r.token? id = some run then none else r.live? run)
    (hfresh : ∀ run, r'.nextRun ≤ run → r'.run? run = none) : r'.Tied := by
  refine ⟨fun id' run g => ?_, hfresh⟩
  rw [hheld, hlive]
  by_cases hid : id' = id
  · subst hid
    rw [if_pos rfl]
    refine iff_of_false (by simp) fun hl => ?_
    split at hl
    · cases hl
    · rename_i hno
      exact hno (by rw [token?_eq, (h.held id' run g).2 hl]; rfl)
  · rw [if_neg hid, h.held]
    split
    · -- the run that was let go belonged to this timer and no other
      rename_i ht
      obtain ⟨g', hg'⟩ := held?_of_token? ht
      refine iff_of_false (fun hl => hid ?_) (by simp)
      rw [← h.held] at hl
      exact h.timer_unique (by rw [token?_eq, hl]; rfl) ht
    · rfl

theorem held?_stop (id id' : TimerId) :
    (r.stop id now).held? id' = if id' = id then none else r.held? id' := by
  unfold held?
  rw [entry?_stop]
  split
  · cases r.entry? id <;> rfl
  · rfl

theorem live?_stop (id : TimerId) (run : RunId) :
    (r.stop id now).live? run = if r.token? id = some run then none else r.live? run := by
  unfold live?
  rw [run?_stop]
  split
  · cases r.run? run <;> rfl
  · rfl

theorem Tied.stop (h : r.Tied) (id : TimerId) : (r.stop id now).Tied := by
  refine h.release id (held?_stop now id) (live?_stop now id) fun run hr => ?_
  rw [run?_stop, h.fresh run (by simpa using hr)]; simp

theorem Tied.drop (h : r.Tied) {id : TimerId} (hid : r.held? id = none) : (r.drop id now).Tied := by
  refine h.of_eq (fun id' => ?_) (fun run => ?_) fun run hr => ?_
  · unfold held? at hid ⊢
    rw [entry?_drop]
    split
    · rename_i heq; subst heq; exact hid.symm
    · rfl
  · unfold live?; rw [run?_drop]
  · rw [run?_drop]; exact h.fresh run (by simpa using hr)

theorem Tied.forget (h : r.Tied) (id : TimerId) : (r.forget id now).Tied :=
  (h.stop now id).drop now (by rw [held?_stop]; exact if_pos rfl)

theorem Tied.stopAll (h : r.Tied) : (r.stopAll now).Tied :=
  stopAll_induction r now h (fun _ id h => h.stop now id) fun _ h => ⟨h.held, h.fresh⟩

/-! ## A new run -/

theorem held?_beginRun (t : Timer) (id : TimerId) :
    (r.beginRun t now).held? id =
      if id = t.id then some (r.nextRun, ((r.entry? t.id).getD {}).generation + 1) else r.held? id := by
  unfold held?
  rw [entry?_beginRun]
  split <;> rfl

theorem live?_beginRun (h : r.Tied) (t : Timer) (run : RunId) :
    (r.beginRun t now).live? run =
      if run = r.nextRun then some (t.id, ((r.entry? t.id).getD {}).generation + 1)
      else if r.token? t.id = some run then none else r.live? run := by
  unfold live?
  rw [run?_beginRun]
  by_cases hrun : run = r.nextRun
  · subst hrun
    rw [h.fresh _ (Nat.le_refl _)]; simp
  · rw [if_neg hrun, if_neg (Ne.symm hrun), Option.or_none]
    split
    · cases r.run? run <;> rfl
    · rfl

theorem Tied.beginRun (h : r.Tied) (t : Timer) : (r.beginRun t now).Tied := by
  refine ⟨fun id run g => ?_, fun run hr => ?_⟩
  · rw [held?_beginRun, live?_beginRun now h]
    -- no entry holds the new name yet
    have hnew : ∀ id g, r.held? id ≠ some (r.nextRun, g) := fun id g hh => by
      obtain ⟨x, hx, -⟩ := live?_eq_some ((h.held _ _ _).1 hh)
      rw [h.fresh _ (Nat.le_refl _)] at hx; cases hx
    by_cases hid : id = t.id
    · subst hid
      by_cases hrun : run = r.nextRun
      · subst hrun; simp
      · rw [if_pos rfl, if_neg hrun]
        refine iff_of_false (by simp [Ne.symm hrun]) fun hl => ?_
        split at hl
        · cases hl
        · rename_i hno
          exact hno (by rw [token?_eq, (h.held _ _ _).2 hl]; rfl)
    · rw [if_neg hid]
      by_cases hrun : run = r.nextRun
      · subst hrun
        rw [if_pos rfl]
        refine iff_of_false (hnew id g) fun hl => hid ?_
        rw [Option.some.injEq, Prod.mk.injEq] at hl
        exact hl.1.symm
      · rw [if_neg hrun, h.held]
        split
        · rename_i ht
          refine iff_of_false (fun hl => hid ?_) (by simp)
          rw [← h.held] at hl
          exact h.timer_unique (by rw [token?_eq, hl]; rfl) ht
        · rfl
  · rw [nextRun_beginRun] at hr
    rw [run?_beginRun, h.fresh run (Nat.le_of_succ_le hr), if_neg (Nat.ne_of_lt hr)]; simp

theorem Tied.start (h : r.Tied) (t : Timer) : (r.start t now).Tied := by
  rcases r.start_cases now t with ⟨-, he⟩ | ⟨-, he | he | he⟩ <;> rw [he]
  · exact h.upsert now t.id fun _ => rfl
  · exact h.beginRun now t
  · exact h.resume now t.id
  · exact h

theorem Tied.restart (h : r.Tied) (t : Timer) : (r.restart t now).Tied := by
  rcases r.restart_cases now t with ⟨-, he⟩ | ⟨-, he⟩ <;> rw [he]
  · exact h.upsert now t.id fun _ => rfl
  · exact (h.stop now t.id).beginRun now t

theorem Tied.perform (h : r.Tied) (op : Op) : (r.perform now op).Tied := by
  cases op with
  | start t => exact h.start now t
  | resume id => exact h.resume now id
  | pause t => exact h.pause now t
  | restart t => exact h.restart now t
  | stop id => exact h.stop now id
  | reset id => exact (h.stop now id).update now id fun _ => rfl
  | mark id name => exact h
  | forget id => exact h.forget now id
  | stopAll => exact h.stopAll now

/-! ## The runs go on -/

theorem Tied.report (h : r.Tied) (x : Run) (step : StepId) (remaining : Option UInt64) :
    (r.report x now step remaining).Tied := by
  unfold Runner.report
  split
  · exact h
  · exact h.update now x.timer fun e => by simp [RunEntry.held?]

theorem Tied.modifyActivity (h : r.Tied) (run : RunId) (f : Activity → Activity) :
    (r.modifyRun run fun x => { x with activity := f x.activity }).Tied := by
  have hrun := run?_modifyRun r run (fun x => { x with activity := f x.activity }) fun _ => rfl
  refine h.of_eq (fun _ => rfl) (fun run' => ?_) fun run' hr => ?_
  · unfold live?
    rw [hrun]
    split
    · rename_i heq; subst heq; cases r.run? run' <;> rfl
    · rfl
  · rw [hrun, h.fresh run' hr]
    split
    · rename_i heq; subst heq; rw [h.fresh run' hr]; rfl
    · rfl

theorem Tied.apply (h : r.Tied) (x : Run) (m : Move) : (r.apply x now m).Tied := by
  refine apply_induction r now x m ?_ fun r' step remaining _ hr => hr.report now x step remaining
  have hm := h.modifyActivity x.id fun _ => m.next
  exact ⟨hm.held, hm.fresh⟩

/-- A live run that comes to its end is let go by its entry; an aborted one is held by none. -/
theorem Tied.finish (h : r.Tied) {x : Run} (hx : r.run? x.id = some x) : (r.finish x now).Tied := by
  have hfresh : ∀ run, (r.finish x now).nextRun ≤ run → (r.finish x now).run? run = none := by
    intro run hr
    rw [run?_finish, h.fresh run (by simpa using hr)]; simp
  cases ha : x.signals.aborted with
  | true =>
    refine h.of_eq (fun id => ?_) (fun run => ?_) hfresh
    · unfold held?; rw [entry?_finish, ha]; simp
    · unfold live?
      rw [run?_finish]
      split
      · rename_i heq; subst heq; simp [hx, ha]
      · rfl
  | false =>
    obtain ⟨e, he, ht, hg⟩ := h.entry_of_live hx ha
    refine h.release x.timer (fun id => ?_) (fun run => ?_) hfresh
    · unfold held?
      rw [entry?_finish, ha]
      by_cases hid : id = x.timer
      · simp [hid, he, RunEntry.finished, hg, RunEntry.held?]
      · simp [hid]
    · have htok := r.token?_of_entry? he ht
      unfold live?
      rw [run?_finish, htok]
      by_cases hrun : run = x.id
      · simp [hrun]
      · simp [hrun, Ne.symm hrun]

theorem Tied.advance (h : r.Tied) {run : RunId} {coin : Bool} {r' : Runner} {events : List Event}
    (ha : r.advance run coin now = some (r', events)) : r'.Tied := by
  obtain ⟨x, hx, ⟨-, rfl, -⟩ | ⟨-, m, -, rfl, -⟩⟩ := advance_cases r now ha
  · have hid := id_of_run? r hx
    subst hid
    exact h.finish now hx
  · exact h.apply now x m

end Runner

/-! ## Histories -/

namespace World

theorem Step.tied {ok : Runner.Op → Prop} {w w' : World} (h : w.runner.Tied) (hs : Step ok w w') :
    w'.runner.Tied := by
  cases hs with
  | call op _ => exact h.perform w.now op
  | move run coin ha => exact h.advance w.now ha
  | wake run => exact h.modifyActivity run Activity.wake
  | dismiss => exact ⟨h.held, h.fresh⟩
  | pass t _ => exact h

/-- In every world that is reached the entries hold the live runs. -/
theorem Reached.tied {ok : Runner.Op → Prop} {w : World} (h : Reached ok w) : w.runner.Tied := by
  refine h.induction (fun equipment now => ⟨fun id run g => ?_, fun _ _ => rfl⟩) fun _ _ hw hs => hs.tied hw
  exact iff_of_false (by simp [initial, Runner.held?, Runner.entry?])
    (by simp [initial, Runner.live?, Runner.run?])

end World

end StepTimer
