/-
What an entry says and what its run is told. An entry is changed by ten calls, by the reports of its
run and by the end of it, its run is signalled apart from that; the invariant is that the status is
that of the signals, and the position that of a step of the timer the run was begun with.

Each change concerns one timer. Of the entries of all others it is enough that they are the same and
that their runs are signalled as before (`Entries.frame`), which holds since no two entries hold one
run.
-/
import StepTimer.Proofs.Run.Kin
import StepTimer.Proofs.Engine.Names

namespace StepTimer

namespace RunEntry

/-- The entry of a stopwatch. -/
structure IsWatch (e : RunEntry) : Prop where
  token : e.token = none
  active : e.activeStepId = none
  remaining : e.remainingMs = none
  running : e.stopwatch.isRunning = true ↔ e.status = .running

/-- The entry of a timer with steps, by what its runs are signalled and what steps they may be in. -/
structure Follows (signals : RunId → Option Signals) (steps : RunId → StepId → Prop) (e : RunEntry) : Prop where
  idle : e.token = none → e.status = .idle ∧ e.activeStepId = none ∧ e.remainingMs = none
  held : ∀ run, e.token = some run →
    ∃ s, signals run = some s ∧ s.aborted = false ∧ e.status = if s.paused then .paused else .running
  remaining : e.remainingMs.isSome → e.activeStepId.isSome
  active : ∀ step, e.activeStepId = some step → ∃ run, e.token = some run ∧ steps run step

variable {signals signals' : RunId → Option Signals} {steps steps' : RunId → StepId → Prop} {e : RunEntry}
variable (now : Instant)

theorem Follows.congr (h : e.Follows signals steps)
    (hsig : ∀ run, e.token = some run → signals' run = signals run)
    (hsteps : ∀ run step, e.token = some run → steps run step → steps' run step) :
    e.Follows signals' steps' := by
  constructor
  case idle => exact h.idle
  case held =>
    intro run ht
    rw [hsig run ht]; exact h.held run ht
  case remaining => exact h.remaining
  case active =>
    intro step ha
    obtain ⟨run, ht, hs⟩ := h.active step ha
    exact ⟨run, ht, hsteps run step ht hs⟩

theorem Follows.idle_iff (h : e.Follows signals steps) : e.status = .idle ↔ e.token = none := by
  rcases Option.eq_none_or_eq_some e.token with ht | ⟨run, ht⟩
  · exact iff_of_true (h.idle ht).1 ht
  · obtain ⟨s, -, -, hs⟩ := h.held run ht
    rw [hs, ht]
    cases s.paused <;> simp

/-- The status of an entry is that of the signals of the run that it holds. -/
theorem Follows.status_iff (h : e.Follows signals steps) (paused : Bool) :
    e.status = (if paused then .paused else .running) ↔
      ∃ run s, e.token = some run ∧ signals run = some s ∧ s.aborted = false ∧ s.paused = paused := by
  rcases Option.eq_none_or_eq_some e.token with ht | ⟨run, ht⟩
  · rw [(h.idle ht).1, ht]
    refine iff_of_false (by cases paused <;> simp) ?_
    rintro ⟨run, s, htok, -⟩
    cases htok
  · obtain ⟨s, hs, ha, hstatus⟩ := h.held run ht
    rw [hstatus]
    constructor
    · intro heq
      exact ⟨run, s, ht, hs, ha, by cases hp : s.paused <;> cases paused <;> simp_all⟩
    · rintro ⟨run', s', ht', hs', -, rfl⟩
      rw [ht] at ht'; cases ht'
      rw [hs] at hs'; cases hs'
      rfl

/-! ## Stopwatches -/

theorem isWatch_new : ({} : RunEntry).IsWatch := ⟨rfl, rfl, rfl, by simp [Stopwatch.isRunning]⟩

theorem isRunning_start (w : Stopwatch) : (w.start now).isRunning = true := by
  unfold Stopwatch.start Stopwatch.isRunning
  split <;> simp_all

theorem isRunning_pause (w : Stopwatch) : (w.pause now).isRunning = false := by
  unfold Stopwatch.pause Stopwatch.isRunning
  split <;> simp_all

theorem IsWatch.startWatch (h : e.IsWatch) : (e.startWatch now).IsWatch :=
  ⟨h.token, h.active, h.remaining, iff_of_true (isRunning_start now e.stopwatch) rfl⟩

theorem IsWatch.restartWatch (h : e.IsWatch) : (e.restartWatch now).IsWatch :=
  ⟨h.token, h.active, h.remaining, iff_of_true rfl rfl⟩

theorem IsWatch.pauseWatch (h : e.IsWatch) : (e.pauseWatch now).IsWatch := by
  refine ⟨h.token, h.active, h.remaining, ?_⟩
  simp only [RunEntry.pauseWatch, isRunning_pause]
  split <;> simp_all

theorem isWatch_stopped : (e.stopped now).IsWatch := by
  refine ⟨rfl, rfl, rfl, ?_⟩
  simp [stopped, clearPosition, isRunning_pause]

theorem IsWatch.resetWatch_stopped : (e.stopped now).resetWatch.IsWatch :=
  ⟨rfl, rfl, rfl, by simp [RunEntry.resetWatch, stopped, Stopwatch.reset, Stopwatch.isRunning]⟩

theorem IsWatch.resumed (h : e.IsWatch) : e.resumed.IsWatch := by
  unfold RunEntry.resumed resumable
  simpa [h.token] using h

/-! ## Timers with steps -/

/-- An entry that holds no run is idle and says nothing of a step. -/
theorem follows_of_free (ht : e.token = none) (hs : e.status = .idle) (ha : e.activeStepId = none)
    (hr : e.remainingMs = none) : e.Follows signals steps := by
  constructor
  case idle => exact fun _ => ⟨hs, ha, hr⟩
  case held =>
    intro run h
    rw [ht] at h; cases h
  case remaining =>
    intro h
    rw [hr] at h; cases h
  case active =>
    intro step h
    rw [ha] at h; cases h

theorem follows_stopped : (e.stopped now).Follows signals steps := follows_of_free rfl rfl rfl rfl

theorem follows_resetWatch_stopped : (e.stopped now).resetWatch.Follows signals steps :=
  follows_of_free rfl rfl rfl rfl

theorem follows_finished (g : Nat) (hg : e.generation = g) : (e.finished g).Follows signals steps := by
  unfold finished
  rw [if_pos hg]
  exact follows_of_free rfl rfl rfl rfl

theorem follows_begun {run : RunId} {first : Option StepId} (hsig : signals run = some {})
    (hfirst : ∀ step, first = some step → steps run step) : (e.begun run first).Follows signals steps := by
  constructor
  case idle =>
    intro h
    cases h
  case held =>
    intro run' h
    cases h; exact ⟨{}, hsig, rfl, rfl⟩
  case remaining =>
    intro h
    cases h
  case active => exact fun step h => ⟨run, rfl, hfirst step h⟩

theorem Follows.reported (h : e.Follows signals steps) {run : RunId} (ht : e.token = some run) (g : Nat)
    {step : StepId} (remaining : Option UInt64) (hs : steps run step) :
    (e.reported g step remaining).Follows signals steps := by
  unfold RunEntry.reported
  split
  · refine ⟨fun h => ?_, h.held, fun _ => rfl, fun step' h => ?_⟩
    · rw [show e.token = none from h] at ht; cases ht
    · cases h; exact ⟨run, ht, hs⟩
  · exact h

/-- A pause or a resume concerns the run of an entry in one of its two states, and sets the signal of
the run together with the status. -/
theorem Follows.turned (h : e.Follows signals steps) (pause : Bool) {o : Option RunId}
    (ho : o = if e.status = (if pause then .running else .paused) then e.token else none)
    (hsig : ∀ run, e.token = some run → signals' run =
      if o = some run then (signals run).map fun s => { s with paused := pause } else signals run) :
    Follows signals' steps
      (if o.isSome then { e with status := if pause then .paused else .running } else e) := by
  rcases Option.eq_none_or_eq_some e.token with ht | ⟨run, ht⟩
  · have hnone : o = none := by rw [ho, ht]; simp
    rw [hnone]
    exact h.congr (fun run h => by rw [ht] at h; cases h) fun _ _ _ hs => hs
  · obtain ⟨s, hs, ha, hstatus⟩ := h.held run ht
    have hsig := hsig run ht
    by_cases hp : s.paused = pause
    · -- the run is signalled so already: the call finds nothing to do
      have hnone : o = none := by rw [ho, hstatus, hp]; cases pause <;> simp
      rw [hnone] at hsig ⊢
      refine h.congr (fun run' h => ?_) fun _ _ _ hs => hs
      rw [ht] at h; cases h; simpa using hsig
    · have hsome : o = some run := by
        rw [ho, hstatus, ht]; cases pause <;> cases hs : s.paused <;> simp_all
      rw [hsome, if_pos rfl, hs] at hsig
      rw [hsome]
      refine ⟨fun h => ?_, fun run' h => ?_, h.remaining, h.active⟩
      · rw [show e.token = none from h] at ht; cases ht
      · rw [show e.token = some run' from h] at ht; cases ht
        exact ⟨_, hsig, ha, rfl⟩

theorem Follows.resumed (h : e.Follows signals steps)
    (hsig : ∀ run, e.token = some run → signals' run =
      if e.resumable = some run then (signals run).map fun s => { s with paused := false } else signals run) :
    e.resumed.Follows signals' steps :=
  h.turned false rfl hsig

theorem Follows.paused (h : e.Follows signals steps)
    (hsig : ∀ run, e.token = some run → signals' run =
      if e.pausable = some run then (signals run).map fun s => { s with paused := true } else signals run) :
    e.paused.Follows signals' steps :=
  h.turned true rfl hsig

theorem token_of_resumable {run : RunId} (h : e.resumable = some run) : e.token = some run := by
  unfold resumable at h
  split at h
  · exact h
  · cases h

theorem token_of_pausable {run : RunId} (h : e.pausable = some run) : e.token = some run := by
  unfold pausable at h
  split at h
  · exact h
  · cases h

/-- What is to be said of the entry of a timer, by the mode of the timer. -/
def Fits (modes : TimerId → TimerMode) (signals : RunId → Option Signals) (steps : RunId → StepId → Prop)
    (id : TimerId) (e : RunEntry) : Prop :=
  if modes id = .stopwatch then e.IsWatch else e.Follows signals steps

theorem Fits.imp {modes : TimerId → TimerMode} {id : TimerId} (h : e.Fits modes signals steps id)
    (himp : e.Follows signals steps → e.Follows signals' steps') : e.Fits modes signals' steps' id := by
  unfold Fits at h ⊢
  split at h <;> rename_i hm
  · rw [if_pos hm]; exact h
  · rw [if_neg hm]; exact himp h

theorem fits_of_both {modes : TimerId → TimerMode} {id : TimerId} (hw : e.IsWatch)
    (hf : e.Follows signals steps) : e.Fits modes signals steps id := by
  unfold Fits
  split
  · exact hw
  · exact hf

end RunEntry

namespace Runner

/-- What a run is signalled. -/
def signals? (r : Runner) (run : RunId) : Option Signals := (r.run? run).map (·.signals)

/-- Every entry is as it has to be. -/
def Entries (modes : TimerId → TimerMode) (steps : RunId → StepId → Prop) (r : Runner) : Prop :=
  ∀ id e, r.entry? id = some e → e.Fits modes r.signals? steps id

variable {modes : TimerId → TimerMode} {steps steps' : RunId → StepId → Prop} {r r' : Runner}
variable (now : Instant)

/-- A change that concerns one timer keeps the entries of all others. -/
theorem Entries.frame (h : r.Entries modes steps) (ht : r.Tied) (id₀ : TimerId)
    (he : ∀ id, id ≠ id₀ → r'.entry? id = r.entry? id)
    (hsig : ∀ id run, id ≠ id₀ → r.token? id = some run → r.token? id₀ ≠ some run →
      r'.signals? run = r.signals? run)
    (h₀ : ∀ e, r'.entry? id₀ = some e → e.Fits modes r'.signals? steps id₀) : r'.Entries modes steps := by
  intro id e hid
  by_cases hne : id = id₀
  · subst hne; exact h₀ e hid
  · rw [he id hne] at hid
    refine (h id e hid).imp fun hf => hf.congr (fun run htok => ?_) fun _ _ _ hs => hs
    have htok' := r.token?_of_entry? hid htok
    exact hsig id run hne htok' fun h₀ => hne (ht.timer_unique htok' h₀)

/-- The steps that a run in the table may be in can only become more. -/
theorem Entries.mono (h : r.Entries modes steps) (ht : r.Tied)
    (hsteps : ∀ run step, run < r.nextRun → steps run step → steps' run step) : r.Entries modes steps' := by
  intro id e hid
  refine (h id e hid).imp fun hf => hf.congr (fun _ _ => rfl) fun run step htok hs => hsteps run step ?_ hs
  have htok' := r.token?_of_entry? hid htok
  obtain ⟨x, hx, -, -⟩ := ht.run_of_token htok'
  exact ht.lt_nextRun hx

theorem Entries.follows {id : TimerId} {e : RunEntry} (h : r.Entries modes steps) (hm : modes id ≠ .stopwatch)
    (he : r.entry? id = some e) : e.Follows r.signals? steps := by
  have := h id e he
  unfold RunEntry.Fits at this
  rwa [if_neg hm] at this

theorem Entries.isWatch {id : TimerId} {e : RunEntry} (h : r.Entries modes steps) (hm : modes id = .stopwatch)
    (he : r.entry? id = some e) : e.IsWatch := by
  have := h id e he
  unfold RunEntry.Fits at this
  rwa [if_pos hm] at this

/-- A run of a timer with steps is live only under a timer with steps. -/
theorem Entries.mode_of_token {id : TimerId} {run : RunId} (h : r.Entries modes steps)
    (htok : r.token? id = some run) : modes id ≠ .stopwatch := by
  intro hm
  obtain ⟨e, he, ht⟩ := Option.bind_eq_some_iff.1 htok
  rw [(h.isWatch hm he).token] at ht
  cases ht

/-! ## The calls -/

theorem Entries.stop (h : r.Entries modes steps) (ht : r.Tied) (id : TimerId) :
    (r.stop id now).Entries modes steps := by
  refine h.frame ht id (fun id' hne => ?_) (fun _ run _ _ hne => ?_) fun e he => ?_
  · rw [entry?_stop, if_neg hne]
  · unfold signals?; rw [run?_stop, if_neg hne]
  · rw [entry?_stop, if_pos rfl] at he
    obtain ⟨e, -, rfl⟩ := Option.map_eq_some_iff.1 he
    exact RunEntry.fits_of_both (RunEntry.isWatch_stopped now) (RunEntry.follows_stopped now)

theorem Entries.reset (h : r.Entries modes steps) (ht : r.Tied) (id : TimerId) :
    (r.reset id now).Entries modes steps := by
  refine h.frame ht id (fun id' hne => ?_) (fun _ run _ _ hne => ?_) fun e he => ?_
  · unfold Runner.reset; rw [entry?_update, if_neg hne, entry?_stop, if_neg hne]
  · unfold signals? Runner.reset; rw [run?_update, run?_stop, if_neg hne]
  · unfold Runner.reset at he
    rw [entry?_update, if_pos rfl, entry?_stop, if_pos rfl, Option.map_map] at he
    obtain ⟨e, -, rfl⟩ := Option.map_eq_some_iff.1 he
    exact RunEntry.fits_of_both (RunEntry.IsWatch.resetWatch_stopped now) (RunEntry.follows_resetWatch_stopped now)

theorem Entries.drop (h : r.Entries modes steps) (ht : r.Tied) (id : TimerId) :
    (r.drop id now).Entries modes steps := by
  refine h.frame ht id (fun id' hne => ?_) (fun _ run _ _ _ => ?_) fun e he => ?_
  · rw [entry?_drop, if_neg hne]
  · unfold signals?; rw [run?_drop]
  · rw [entry?_drop, if_pos rfl] at he; cases he

theorem Entries.stopAll (h : r.Entries modes steps) (ht : r.Tied) : (r.stopAll now).Entries modes steps := by
  have hall := stopAll_induction r now (P := fun r => r.Entries modes steps ∧ r.Tied) ⟨h, ht⟩
    (fun _ id hr => ⟨hr.1.stop now hr.2 id, hr.2.stop now id⟩) fun _ hr => ⟨hr.1, hr.2.held, hr.2.fresh⟩
  exact hall.1

theorem Entries.resume (h : r.Entries modes steps) (ht : r.Tied) (id : TimerId) :
    (r.resume id now).Entries modes steps := by
  refine h.frame ht id (fun id' hne => ?_) (fun _ run _ _ hne => ?_) fun e he => ?_
  · rw [entry?_resume, if_neg hne]
  · unfold signals?
    rw [run?_resume, if_neg]
    intro hres
    obtain ⟨e, he, hres⟩ := Option.bind_eq_some_iff.1 hres
    exact hne (r.token?_of_entry? he (RunEntry.token_of_resumable hres))
  · rw [entry?_resume, if_pos rfl] at he
    obtain ⟨e, hid, rfl⟩ := Option.map_eq_some_iff.1 he
    by_cases hm : modes id = .stopwatch
    · unfold RunEntry.Fits
      rw [if_pos hm]
      exact (h.isWatch hm hid).resumed
    · unfold RunEntry.Fits
      rw [if_neg hm]
      refine (h.follows hm hid).resumed fun run _ => ?_
      unfold signals?
      rw [run?_resume, hid]
      simp only [Option.bind_some]
      split <;> simp [Function.comp_def]

/-- A stopwatch is started, held or started again; the change makes an entry if there is none. -/
theorem Entries.watch (h : r.Entries modes steps) (ht : r.Tied) {id : TimerId} (hm : modes id = .stopwatch)
    {f : RunEntry → RunEntry} (hf : ∀ e, e.IsWatch → (f e).IsWatch) :
    (r.upsert id now f).Entries modes steps ∧ (r.update id now f).Entries modes steps := by
  have hfits : ∀ (signals : RunId → Option Signals) (e : RunEntry), e.IsWatch →
      e.Fits modes signals steps id := fun signals e hw => by
    unfold RunEntry.Fits
    rw [if_pos hm]
    exact hw
  refine ⟨h.frame ht id (fun id' hne => ?_) (fun _ _ _ _ _ => rfl) fun e he => ?_,
    h.frame ht id (fun id' hne => ?_) (fun _ run _ _ _ => ?_) fun e he => ?_⟩
  · rw [entry?_upsert, if_neg hne]
  · rw [entry?_upsert, if_pos rfl] at he
    cases he
    refine hfits _ _ (hf _ ?_)
    cases hid : r.entry? id with
    | none => exact RunEntry.isWatch_new
    | some e => exact h.isWatch hm hid
  · rw [entry?_update, if_neg hne]
  · unfold signals?; rw [run?_update]
  · rw [entry?_update, if_pos rfl] at he
    obtain ⟨e, hid, rfl⟩ := Option.map_eq_some_iff.1 he
    exact hfits _ _ (hf e (h.isWatch hm hid))

theorem Entries.pause (h : r.Entries modes steps) (ht : r.Tied) {t : Timer} (hmode : t.mode = modes t.id) :
    (r.pause t now).Entries modes steps := by
  by_cases hm : t.mode = .stopwatch
  · unfold Runner.pause
    rw [if_pos hm]
    exact (h.watch now ht (hmode ▸ hm) fun e hw => hw.pauseWatch now).2
  · refine h.frame ht t.id (fun id' hne => ?_) (fun _ run _ _ hne => ?_) fun e he => ?_
    · rw [entry?_pause r now hm, if_neg hne]
    · unfold signals?
      rw [run?_pause r now hm, if_neg]
      intro hpau
      obtain ⟨e, he, hpau⟩ := Option.bind_eq_some_iff.1 hpau
      exact hne (r.token?_of_entry? he (RunEntry.token_of_pausable hpau))
    · rw [entry?_pause r now hm, if_pos rfl] at he
      obtain ⟨e, hid, rfl⟩ := Option.map_eq_some_iff.1 he
      have hm' : modes t.id ≠ .stopwatch := hmode ▸ hm
      unfold RunEntry.Fits
      rw [if_neg hm']
      refine (h.follows hm' hid).paused fun run _ => ?_
      unfold signals?
      rw [run?_pause r now hm, hid]
      simp only [Option.bind_some]
      split <;> simp [Function.comp_def]

theorem Entries.beginRun (h : r.Entries modes steps) (ht : r.Tied) {t : Timer} (hm : modes t.id ≠ .stopwatch)
    (hnew : ∀ step ∈ Step.idsOf t.steps, steps r.nextRun step) : (r.beginRun t now).Entries modes steps := by
  refine h.frame ht t.id (fun id' hne => ?_) (fun id' run _ htok hne => ?_) fun e he => ?_
  · rw [entry?_beginRun, if_neg hne]
  · have hold : r.nextRun ≠ run := by
      obtain ⟨x, hx, -, -⟩ := ht.run_of_token htok
      exact Ne.symm (Nat.ne_of_lt (ht.lt_nextRun hx))
    unfold signals?
    rw [run?_beginRun, if_neg hne, if_neg hold, Option.or_none]
  · rw [entry?_beginRun, if_pos rfl] at he
    cases he
    unfold RunEntry.Fits
    rw [if_neg hm]
    refine RunEntry.follows_begun ?_ fun step hstep => hnew step ?_
    · unfold signals?
      rw [run?_beginRun, ht.fresh _ (Nat.le_refl _)]
      simp
    · -- the first step is the one the entry points at from the beginning
      cases hs : t.steps with
      | nil => rw [hs] at hstep; cases hstep
      | cons s rest =>
        rw [hs] at hstep
        cases hstep
        simp [Step.idsOf, Step.id_mem_ids]

theorem Entries.start (h : r.Entries modes steps) (ht : r.Tied) {t : Timer} (hmode : t.mode = modes t.id)
    (hnew : r.nextRun < (r.start t now).nextRun → ∀ step ∈ Step.idsOf t.steps, steps r.nextRun step) :
    (r.start t now).Entries modes steps := by
  rcases r.start_cases now t with ⟨hm, he⟩ | ⟨hm, he | he | he⟩ <;> rw [he] at hnew ⊢
  · exact (h.watch now ht (hmode ▸ hm) fun e hw => hw.startWatch now).1
  · exact h.beginRun now ht (hmode ▸ hm) (hnew (Nat.lt_succ_self _))
  · exact h.resume now ht t.id
  · exact h

theorem Entries.restart (h : r.Entries modes steps) (ht : r.Tied) {t : Timer} (hmode : t.mode = modes t.id)
    (hnew : r.nextRun < (r.restart t now).nextRun → ∀ step ∈ Step.idsOf t.steps, steps r.nextRun step) :
    (r.restart t now).Entries modes steps := by
  rcases r.restart_cases now t with ⟨hm, he⟩ | ⟨hm, he⟩ <;> rw [he] at hnew ⊢
  · exact (h.watch now ht (hmode ▸ hm) fun e hw => hw.restartWatch now).1
  · refine (h.stop now ht t.id).beginRun now (ht.stop now t.id) (hmode ▸ hm) ?_
    rw [nextRun_stop]
    exact hnew (by rw [nextRun_beginRun, nextRun_stop]; exact Nat.lt_succ_self _)

theorem Entries.perform (h : r.Entries modes steps) (ht : r.Tied) {op : Op}
    (hop : ∀ t, op.timer? = some t → t.mode = modes t.id)
    (hnew : r.nextRun < (r.perform now op).nextRun → ∀ t, op.timer? = some t →
      ∀ step ∈ Step.idsOf t.steps, steps r.nextRun step) : (r.perform now op).Entries modes steps := by
  cases op with
  | start t => exact h.start now ht (hop t rfl) fun hlt => hnew hlt t rfl
  | resume id => exact h.resume now ht id
  | pause t => exact h.pause now ht (hop t rfl)
  | restart t => exact h.restart now ht (hop t rfl) fun hlt => hnew hlt t rfl
  | stop id => exact h.stop now ht id
  | reset id => exact h.reset now ht id
  | mark id name => exact h
  | forget id => exact (h.stop now ht id).drop now (ht.stop now id) id
  | stopAll => exact h.stopAll now ht

/-! ## The runs go on -/

theorem Entries.modifyActivity (h : r.Entries modes steps) (run : RunId) (f : Activity → Activity) :
    (r.modifyRun run fun x => { x with activity := f x.activity }).Entries modes steps := by
  have hsig : (r.modifyRun run fun x => { x with activity := f x.activity }).signals? = r.signals? := by
    funext run'
    unfold signals?
    rw [run?_modifyRun r run (fun x => { x with activity := f x.activity }) fun _ => rfl]
    split
    · rename_i heq; subst heq; cases r.run? run' <;> rfl
    · rfl
  intro id e he
  rw [hsig]
  exact h id e he

theorem Entries.report (h : r.Entries modes steps) (ht : r.Tied) {x x' : Run} (hx : r.run? x.id = some x')
    (hkin : x'.timer = x.timer ∧ x'.signals = x.signals) {step : StepId} (hs : steps x.id step)
    (remaining : Option UInt64) : (r.report x now step remaining).Entries modes steps := by
  refine h.frame ht x.timer (fun id hne => ?_) (fun _ run _ _ _ => ?_) fun e he => ?_
  · rw [entry?_report, if_neg (by simp [hne])]
  · unfold signals?; rw [run?_report]
  · rw [entry?_report] at he
    have hsig : (r.report x now step remaining).signals? = r.signals? := by
      funext run; unfold signals?; rw [run?_report]
    rw [hsig]
    split at he
    · rename_i hlive
      have hid := id_of_run? r hx
      have hlive' : x'.signals.aborted = false := by rw [hkin.2]; exact hlive.1
      obtain ⟨e', hent, htok, -⟩ := ht.entry_of_live (hid ▸ hx) hlive'
      rw [hkin.1] at hent
      rw [hent] at he
      cases he
      rw [hid] at htok
      have hm : modes x.timer ≠ .stopwatch := h.mode_of_token (r.token?_of_entry? hent htok)
      unfold RunEntry.Fits
      rw [if_neg hm]
      exact (h.follows hm hent).reported htok x.generation remaining hs
    · exact h x.timer e he

theorem Entries.finish (h : r.Entries modes steps) (ht : r.Tied) {x : Run} (hx : r.run? x.id = some x) :
    (r.finish x now).Entries modes steps := by
  have hsig : ∀ run, run ≠ x.id → (r.finish x now).signals? run = r.signals? run := by
    intro run hne
    unfold signals?
    rw [run?_finish, if_neg hne]
  refine h.frame ht x.timer (fun id hne => ?_) (fun id run hne htok _ => hsig run ?_) fun e he => ?_
  · rw [entry?_finish, if_neg (by simp [hne])]
  · -- the run that is over is held by its own timer, if by any
    rintro rfl
    obtain ⟨x', hx', -, hid⟩ := ht.run_of_token htok
    rw [hx] at hx'; cases hx'
    exact hne hid.symm
  · rw [entry?_finish] at he
    split at he
    · rename_i hlive
      obtain ⟨e', hent, htok, hgen⟩ := ht.entry_of_live hx hlive.1
      rw [hent] at he
      cases he
      have hm : modes x.timer ≠ .stopwatch := h.mode_of_token (r.token?_of_entry? hent htok)
      unfold RunEntry.Fits
      rw [if_neg hm]
      exact RunEntry.follows_finished x.generation hgen
    · -- the entry is not changed by an aborted run, and does not hold it
      rename_i hlive
      refine (h x.timer e he).imp fun hf => hf.congr (fun run htok => hsig run ?_) fun _ _ _ hs => hs
      rintro rfl
      obtain ⟨x', hx', ha, -⟩ := ht.run_of_token (r.token?_of_entry? he htok)
      rw [hx] at hx'; cases hx'
      exact hlive ⟨ha, rfl⟩

/-- A run speaks only of steps that it may be in. -/
theorem Entries.advance (h : r.Entries modes steps) (ht : r.Tied)
    (hnames : ∀ run x, r.run? run = some x → ∀ step ∈ x.activity.names, steps run step) {run : RunId}
    {coin : Bool} {events : List Event} (ha : r.advance run coin now = some (r', events)) :
    r'.Entries modes steps := by
  obtain ⟨x, hx, ⟨-, rfl, -⟩ | ⟨-, m, hm, rfl, -⟩⟩ := advance_cases r now ha
  · have hid := id_of_run? r hx
    subst hid
    exact h.finish now ht hx
  · have hid := id_of_run? r hx
    subst hid
    have hsub := Activity.names_advance _ _ hm
    -- between the reports the table is tied, and the run is in it as it was but for its activity
    have hall := apply_induction r now x m (P := fun r' => r'.Entries modes steps ∧ r'.Tied ∧
        ∃ x', r'.run? x.id = some x' ∧ x'.timer = x.timer ∧ x'.signals = x.signals) ⟨?_, ?_, ?_⟩
      fun r' step remaining hstep ⟨hr, ht', x', hx', hkin⟩ => ?_
    · exact hall.1
    · exact h.modifyActivity x.id fun _ => m.next
    · have hmod := ht.modifyActivity x.id fun _ => m.next
      exact ⟨hmod.held, hmod.fresh⟩
    · exact ⟨{ x with activity := m.next }, by rw [run?_moved, if_pos rfl, hx]; rfl, rfl, rfl⟩
    · refine ⟨hr.report now ht' hx' hkin (hnames x.id x hx step (hsub ?_)) remaining, ht'.report now x step remaining,
        x', by rw [run?_report]; exact hx', hkin⟩
      exact List.mem_append_left _ (List.mem_filterMap.2 ⟨_, hstep, rfl⟩)

end Runner

/-! ## Histories -/

namespace World

open Runner (Op)

/-- The timer that a run was begun with. -/
def timerOf? (w : World) (run : RunId) : Option Timer := w.begun.lookup run

/-- The steps that a run may be in: those of the timer it was begun with, at any depth. -/
def StepOf (w : World) (run : RunId) (step : StepId) : Prop :=
  ∃ t, w.timerOf? run = some t ∧ step ∈ Step.idsOf t.steps

/-- Every entry is as it has to be, and every run is in the steps it was begun with. -/
structure Sound (modes : TimerId → TimerMode) (w : World) : Prop where
  tied : w.runner.Tied
  names : ∀ run x, w.runner.run? run = some x → ∀ step ∈ x.activity.names, w.StepOf run step
  entries : w.runner.Entries modes w.StepOf

variable {modes : TimerId → TimerMode} {w w' : World}

theorem begun_perform (w : World) (op : Op) :
    (w.perform op).begun =
      ((op.timer?.filter fun _ => w.runner.nextRun < (w.runner.perform w.now op).nextRun).map fun t =>
        (w.runner.nextRun, t)).toList ++ w.begun := rfl

/-- A call gives no other timer to a run that has its name already. -/
theorem timerOf?_perform (op : Op) {run : RunId} (h : run < w.runner.nextRun) :
    (w.perform op).timerOf? run = w.timerOf? run := by
  unfold timerOf?
  rw [begun_perform]
  cases op.timer?.filter fun _ => decide (w.runner.nextRun < (w.runner.perform w.now op).nextRun) with
  | none => rfl
  | some t =>
    have hne : (run == w.runner.nextRun) = false := by simpa using Nat.ne_of_lt h
    simp [List.lookup_cons, hne]

/-- A call that begins a run gives it its timer. -/
theorem timerOf?_perform_new {op : Op} {t : Timer} (ht : op.timer? = some t)
    (h : w.runner.nextRun < (w.runner.perform w.now op).nextRun) :
    (w.perform op).timerOf? w.runner.nextRun = some t := by
  unfold timerOf?
  rw [begun_perform]
  simp [ht, h, Option.filter]

theorem Sound.perform (h : w.Sound modes) {op : Op} (hop : ∀ t, op.timer? = some t → t.mode = modes t.id) :
    (w.perform op).Sound modes := by
  have hold : ∀ run step, run < w.runner.nextRun → w.StepOf run step → (w.perform op).StepOf run step := by
    rintro run step hlt ⟨t, ht, hs⟩
    exact ⟨t, by rw [timerOf?_perform op hlt, ht], hs⟩
  refine ⟨h.tied.perform w.now op, fun run x' hx' => ?_, ?_⟩
  · rcases Runner.kin_perform w.now run h.tied.unused op with hk | ⟨t, ht, -, rfl, hnext, g, hnew⟩
    · rw [show w.runner.perform w.now op = (w.perform op).runner from rfl, hx'] at hk
      obtain ⟨x, hx, hkin⟩ := hk.of_some
      intro step hs
      rw [hkin.activity] at hs
      exact hold run step (h.tied.lt_nextRun hx) (h.names run x hx step hs)
    · rw [show (w.perform op).runner = w.runner.perform w.now op from rfl, hnew] at hx'
      cases hx'
      intro step hs
      exact ⟨t, timerOf?_perform_new ht (by rw [hnext]; exact Nat.lt_succ_self _), hs⟩
  · refine (h.entries.mono h.tied hold).perform w.now h.tied hop fun hlt t ht step hs => ?_
    exact ⟨t, timerOf?_perform_new ht hlt, hs⟩

theorem Sound.advance (h : w.Sound modes) {run : RunId} {coin : Bool} {r : Runner} {events : List Event}
    (ha : w.runner.advance run coin w.now = some (r, events)) : ({ w with runner := r } : World).Sound modes := by
  refine ⟨h.tied.advance w.now ha, fun run' y hy => ?_, h.entries.advance w.now h.tied h.names ha⟩
  by_cases hne : run' = run
  · subst hne
    obtain ⟨x, hx, ⟨-, hgone, -⟩ | ⟨m, hm, hnext, -⟩⟩ := Runner.run?_advance_self ha
    · rw [hgone] at hy; cases hy
    · rw [hnext] at hy; cases hy
      intro step hs
      exact h.names run' x hx step (Activity.names_advance _ _ hm (List.mem_append_right _ hs))
  · rw [Runner.run?_advance_ne w.runner w.now run ha hne] at hy
    exact h.names run' y hy

theorem Sound.wake (h : w.Sound modes) (run : RunId) :
    ({ w with runner := w.runner.wake run } : World).Sound modes := by
  refine ⟨h.tied.modifyActivity run Activity.wake, fun run' y hy => ?_, h.entries.modifyActivity run Activity.wake⟩
  obtain ⟨x, hx, rfl | rfl⟩ := Runner.run_of_wake w.runner hy
  · exact h.names run' y hx
  · exact fun step hs => h.names run' x hx step (x.activity.names_wake hs)

theorem Step.sound (h : w.Sound modes)
    (hs : Step (fun op => ∀ t, op.timer? = some t → t.mode = modes t.id) w w') : w'.Sound modes := by
  cases hs with
  | call op hop => exact h.perform hop
  | move run coin ha => exact h.advance ha
  | wake run => exact h.wake run
  | dismiss => exact ⟨⟨h.tied.held, h.tied.fresh⟩, h.names, h.entries⟩
  | pass t _ => exact ⟨h.tied, h.names, h.entries⟩

theorem sound_initial (equipment : Equipment) (now : Instant) : (initial equipment now).Sound modes := by
  refine ⟨?_, fun run x hx => ?_, fun id e he => ?_⟩
  · exact Reached.tied (show Reached (fun _ => True) (initial equipment now) from ⟨equipment, now, .refl⟩)
  · cases hx
  · cases he

/-- The entries of the table in every world that is reached by calls that use each timer in one mode.
A timer with steps is idle exactly when it holds no run, and then it has no position; it runs when
its run is neither aborted nor paused, it is paused when its run is paused and not aborted. There is
time left only on an active step, and the active step is one of the timer that its run was begun
with, at any depth. A stopwatch has no run and no position, and its clock goes exactly when it runs. -/
theorem entries_sound (modes : TimerId → TimerMode) {w : World} (hw : w.Reached fun op => ∀ t, op.timer? = some t → t.mode = modes t.id)
    {id : TimerId} {e : RunEntry} (he : w.runner.entry? id = some e) :
    (modes id ≠ .stopwatch →
      (e.status = .idle ↔ e.token = none) ∧
      (e.status = .idle → e.activeStepId = none ∧ e.remainingMs = none) ∧
      (e.status = .running ↔ ∃ run x, e.token = some run ∧ w.runner.run? run = some x ∧
        x.signals.aborted = false ∧ x.signals.paused = false) ∧
      (e.status = .paused ↔ ∃ run x, e.token = some run ∧ w.runner.run? run = some x ∧
        x.signals.aborted = false ∧ x.signals.paused = true) ∧
      (e.remainingMs.isSome → e.activeStepId.isSome) ∧
      ∀ step, e.activeStepId = some step →
        ∃ run t, e.token = some run ∧ w.timerOf? run = some t ∧ step ∈ Step.idsOf t.steps) ∧
    (modes id = .stopwatch →
      e.token = none ∧ e.activeStepId = none ∧ e.remainingMs = none ∧
        (e.stopwatch.isRunning = true ↔ e.status = .running)) := by
  have hsound : w.Sound modes := hw.induction sound_initial fun _ _ h hs => hs.sound h
  refine ⟨fun hm => ?_, fun hm => ?_⟩
  · have hf := hsound.entries.follows hm he
    have hactive : ∀ step, e.activeStepId = some step →
        ∃ run t, e.token = some run ∧ w.timerOf? run = some t ∧ step ∈ Step.idsOf t.steps := by
      intro step hstep
      obtain ⟨run, htok, t, ht, hmem⟩ := hf.active step hstep
      exact ⟨run, t, htok, ht, hmem⟩
    have hstatus (paused : Bool) : e.status = (if paused then .paused else .running) ↔
        ∃ run x, e.token = some run ∧ w.runner.run? run = some x ∧ x.signals.aborted = false ∧
          x.signals.paused = paused := by
      rw [hf.status_iff]
      refine exists_congr fun run => ⟨?_, ?_⟩
      · rintro ⟨s, htok, hs, ha, hp⟩
        obtain ⟨x, hx, rfl⟩ := Option.map_eq_some_iff.1 hs
        exact ⟨x, htok, hx, ha, hp⟩
      · rintro ⟨x, htok, hx, ha, hp⟩
        exact ⟨x.signals, htok, Option.map_eq_some_iff.2 ⟨x, hx, rfl⟩, ha, hp⟩
    exact ⟨hf.idle_iff, fun hs => (hf.idle (hf.idle_iff.1 hs)).2, hstatus false, hstatus true, hf.remaining, hactive⟩
  · have hwatch := hsound.entries.isWatch hm he
    exact ⟨hwatch.token, hwatch.active, hwatch.remaining, hwatch.running⟩

/-- A timer that rings until it is dismissed. -/
def eggs : Timer :=
  { id := "eggs", name := "Eggs", steps := [.block "ring" (.notifyUntil { title := "Eggs" }) []] }

/-- The timer was started and is paused in its step. -/
def eggsPaused : World :=
  let w := (initial ⟨fun _ _ => .endless, .off, "", fun _ => ⟨0⟩⟩ ⟨0⟩).perform (.start eggs)
  let r := ((w.runner.advance 1 true w.now).bind fun p => p.1.advance 1 true w.now).elim w.runner (·.1)
  ({ w with runner := r } : World).perform (.pause eggs)

theorem entries_sound_eggsPaused :
    ∃ e, eggsPaused.runner.entry? "eggs" = some e ∧ e.remainingMs = some 10000 ∧
      (∃ run x, e.token = some run ∧ eggsPaused.runner.run? run = some x ∧ x.signals.aborted = false ∧
        x.signals.paused = true) ∧
      ∃ run t, e.token = some run ∧ eggsPaused.timerOf? run = some t ∧ "ring" ∈ Step.idsOf t.steps := by
  have hw : eggsPaused.Reached fun op => ∀ t, op.timer? = some t → t.mode = .sequence := by
    refine ⟨_, _, .tail (.tail (.tail (.single (.call (.start eggs) ?_)) (.move 1 true rfl)) (.move 1 true rfl))
      (.call (.pause eggs) ?_)⟩
    · rintro t ⟨⟩; rfl
    · rintro t ⟨⟩; rfl
  have he : eggsPaused.runner.entry? "eggs" = some _ := rfl
  obtain ⟨-, -, -, hpaused, -, hactive⟩ := (entries_sound (fun _ => .sequence) hw he).1 (by decide)
  exact ⟨_, rfl, rfl, hpaused.1 rfl, hactive "ring" rfl⟩

end World

end StepTimer
