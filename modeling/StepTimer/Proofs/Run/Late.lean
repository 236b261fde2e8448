/-
What is read of a timer after a stop, when calls and runs are on several threads. A stop aborts the run that the
entry holds, but leaves the entry in its generation, and a run looks at its abort before it takes the lock of the
table. So a word may come late: that of a run of the same generation that had looked before the stop. It is the
only one, for the generation has no other run, and after the stop the run looks in vain.
-/
import StepTimer.Proofs.Run.Generations

namespace StepTimer

/-- What is read of a timer after a stop, when a word of its run has come since then or none has. -/
def RunState.afterStop (elapsed : UInt64) : Option Word → RunState
  | none => ⟨.idle, none, none, elapsed, some .aborted⟩
  | some (.report step remaining) => ⟨.idle, some step, remaining, elapsed, some .aborted⟩
  | some .through => ⟨.idle, none, none, elapsed, some .completed⟩

theorem RunState.afterStop_inj {a b : UInt64} {said said' : Option Word}
    (h : RunState.afterStop a said = .afterStop b said') : said = said' := by
  unfold RunState.afterStop at h
  split at h <;> split at h <;> simp_all

/-! ## The entry of a timer at rest -/

namespace RunEntry

variable {e : RunEntry} {late : Word → Prop} {g : Nat} {now : Instant}

/-- The entry of a timer that was stopped in a generation, and has heard nothing since then but some of the late
words. -/
structure IsAtRest (e : RunEntry) (late : Word → Prop) (g : Nat) : Prop where
  generation : e.generation = g
  status : e.status = .idle
  position : e.activeStepId = none ∧ e.remainingMs = none ∨
    ∃ step remaining, late (.report step remaining) ∧ e.activeStepId = some step ∧ e.remainingMs = remaining
  outcome : e.lastOutcome = some .aborted ∨ late .through ∧ e.lastOutcome = some .completed

theorem isAtRest_stopped (h : e.status ≠ .idle) : (e.stopped now).IsAtRest late e.generation :=
  ⟨rfl, rfl, .inl ⟨rfl, rfl⟩, .inl (if_neg h)⟩

theorem IsAtRest.stopped (h : e.IsAtRest late g) : (e.stopped now).IsAtRest late g := by
  have outcome : (e.stopped now).lastOutcome = e.lastOutcome := if_pos h.status
  exact ⟨h.generation, rfl, .inl ⟨rfl, rfl⟩, by rw [outcome]; exact h.outcome⟩

theorem IsAtRest.resetWatch (h : e.IsAtRest late g) : e.resetWatch.IsAtRest late g :=
  ⟨h.generation, h.status, h.position, h.outcome⟩

theorem IsAtRest.resumed (h : e.IsAtRest late g) : e.resumed.IsAtRest late g := by
  simpa [RunEntry.resumed, resumable, h.status] using h

theorem IsAtRest.paused (h : e.IsAtRest late g) : e.paused.IsAtRest late g := by
  simpa [RunEntry.paused, pausable, h.status] using h

theorem IsAtRest.pauseWatch (h : e.IsAtRest late g) : (e.pauseWatch now).IsAtRest late g :=
  ⟨h.generation, by simp [RunEntry.pauseWatch, h.status], h.position, h.outcome⟩

theorem IsAtRest.reported (h : e.IsAtRest late g) {g' : Nat} {step : StepId} {remaining : Option UInt64}
    (hl : g' = g → late (.report step remaining)) : (e.reported g' step remaining).IsAtRest late g := by
  unfold RunEntry.reported
  split
  · rename_i hg
    exact ⟨h.generation, h.status, .inr ⟨step, remaining, hl (hg.symm.trans h.generation), rfl, rfl⟩, h.outcome⟩
  · exact h

theorem IsAtRest.finished (h : e.IsAtRest late g) {g' : Nat} (hl : g' = g → late .through) :
    (e.finished g').IsAtRest late g := by
  unfold RunEntry.finished
  split
  · rename_i hg
    exact ⟨h.generation, rfl, .inl ⟨rfl, rfl⟩, .inr ⟨hl (hg.symm.trans h.generation), rfl⟩⟩
  · exact h

end RunEntry

namespace Runner

variable {r : Runner} {now : Instant} {id : TimerId} {late : Word → Prop} {g : Nat}

/-- The entry of a timer is at rest. -/
def IsAtRest (r : Runner) (id : TimerId) (late : Word → Prop) (g : Nat) : Prop :=
  ∃ e, r.entry? id = some e ∧ e.IsAtRest late g

theorem IsAtRest.of_map {r' : Runner} (h : r.IsAtRest id late g) {f : RunEntry → RunEntry} {id' : TimerId}
    (entry : r'.entry? id = if id = id' then (r.entry? id').map f else r.entry? id)
    (hf : id = id' → ∀ e, e.IsAtRest late g → (f e).IsAtRest late g) : r'.IsAtRest id late g := by
  obtain ⟨e, he, rest⟩ := h
  split at entry
  · rename_i hid
    subst hid
    rw [he] at entry
    exact ⟨f e, entry, hf rfl e rest⟩
  · exact ⟨e, entry.trans he, rest⟩

/-- A timer at rest stays so in every scope that neither begins it anew nor lets it go. -/
theorem IsAtRest.enter (h : r.IsAtRest id late g) {s : Scope} (hs : ¬ s.Renews id) :
    (r.enter now s).IsAtRest id late g := by
  cases s with
  | stop id' => exact h.of_map (r.entry?_stop now id' id) fun _ _ he => he.stopped
  | zero id' => exact h.of_map (r.entry?_update now id' _ id) fun _ _ he => he.resetWatch
  | drop id' =>
    obtain ⟨e, he, rest⟩ := h
    exact ⟨e, ((r.entry?_drop now id' id).trans (if_neg fun hid => hs hid.symm)).trans he, rest⟩
  | begin t =>
    obtain ⟨e, he, rest⟩ := h
    exact ⟨e, ((r.entry?_beginRun now t id).trans (if_neg fun hid => hs hid.symm)).trans he, rest⟩
  | resume id' => exact h.of_map (r.entry?_resume now id' id) fun _ _ he => he.resumed
  | pause t =>
    by_cases hm : t.mode = .stopwatch
    · show (r.pause t now).IsAtRest id late g
      rw [Runner.pause, if_pos hm]
      exact h.of_map (r.entry?_update now t.id _ id) fun _ _ he => he.pauseWatch
    · exact h.of_map (r.entry?_pause now hm id) fun _ _ he => he.paused
  | watch id' again =>
    obtain ⟨e, he, rest⟩ := h
    exact ⟨e, ((r.entry?_upsert now id' _ id).trans (if_neg fun hid => hs hid.symm)).trans he, rest⟩
  | hush => exact h

/-- It stays so when a run of another timer or generation says something, or a late word is said. -/
theorem IsAtRest.hear (h : r.IsAtRest id late g) {x : Run} {word : Word}
    (hl : x.timer = id → x.generation = g → late word) : (r.hear x now word).IsAtRest id late g := by
  cases word with
  | report step remaining =>
    exact h.of_map (r.entry?_update now x.timer _ id) fun hid _ he => he.reported (hl hid.symm)
  | through =>
    exact h.of_map ((r.leave x.id).entry?_update now x.timer _ id) fun hid _ he => he.finished (hl hid.symm)

end Runner

namespace Race

open Runner (Scope)

variable {w w' : Race} {id : TimerId} {now : Instant} {run : RunId} {late : Word → Prop} {g : Nat}

/-! ## A timer at rest -/

/-- A timer is at rest: its runs of the generation in which it was stopped are aborted, and have nothing to say any
more but late words. -/
structure IsAtRest (w : Race) (id : TimerId) (late : Word → Prop) (g : Nat) : Prop where
  entry : w.runner.IsAtRest id late g
  aborted : ∀ run x, w.runner.Runs id run x → x.generation = g → x.signals.aborted = true
  cleared : ∀ run x, w.runner.Runs id run x → x.generation = g → ∀ word, w.cleared run = some word → late word

/-- The runs of a timer that is not begun anew were there before. -/
theorem Step.runs_of (hs : Step (fun s => ¬ s.Renews id) w w') {x' : Run} (hx' : w'.runner.Runs id run x') :
    ∃ x, w.runner.Runs id run x ∧ x.Heir x' := by
  cases hs with
  | scope now s hs =>
    cases s with
    | begin t =>
      rcases Runner.run_of_beginRun hx'.1 with ⟨x, hx, heir⟩ | ⟨-, rfl⟩
      · exact ⟨x, ⟨hx, heir.timer.symm.trans hx'.2⟩, heir⟩
      · exact absurd hx'.2 hs
    | _ => exact (Runner.heirs_enter (by simp)).runs_of hx'
  | move => exact (Runner.heirs_moved _).runs_of hx'
  | leave => exact Runner.heirs_leave.runs_of hx'
  | say => exact (Runner.heirs_hear _).runs_of hx'
  | wake => exact Runner.heirs_wake.runs_of hx'
  | _ => exact ⟨x', hx', rfl, rfl, fun h => h⟩

/-- A word that a run is about to say was already so before, or the run is not aborted. -/
theorem Step.cleared_of {ok : Scope → Prop} (hs : Step ok w w') {word : Word} (hc : w'.cleared run = some word) :
    w.cleared run = some word ∨ ∃ x, w.runner.run? run = some x ∧ w'.runner.run? run = some x ∧
      x.signals.aborted = false := by
  cases hs with
  | @clear x word' rest hx next silent live =>
    by_cases hrun : run = x.id
    · subst hrun
      exact .inr ⟨x, hx, hx, live⟩
    · exact .inl ((Function.update_of_ne hrun _ _).symm.trans hc)
  | @conclude x hx quiet done live =>
    by_cases hrun : run = x.id
    · subst hrun
      exact .inr ⟨x, hx, hx, live⟩
    · exact .inl ((Function.update_of_ne hrun _ _).symm.trans hc)
  | @say now x word' hx cleared =>
    by_cases hrun : run = x.id
    · subst hrun
      cases (Function.update_self x.id none w.cleared).symm.trans hc
    · exact .inl ((Function.update_of_ne hrun _ _).symm.trans hc)
  | _ => exact .inl hc

theorem IsAtRest.step (h : w.IsAtRest id late g) (hs : Step (fun s => ¬ s.Renews id) w w') :
    w'.IsAtRest id late g := by
  have aborted : ∀ run x, w'.runner.Runs id run x → x.generation = g → x.signals.aborted = true := by
    intro run x' hx' hg
    obtain ⟨x, hx, heir⟩ := hs.runs_of hx'
    exact heir.aborted (h.aborted run x hx (heir.generation.symm.trans hg))
  refine ⟨?_, aborted, fun run x' hx' hg word hc => ?_⟩
  · cases hs with
    | scope now s hs => exact h.entry.enter hs
    | say now hx cleared => exact h.entry.hear fun hid hg => h.cleared _ _ ⟨hx, hid⟩ hg _ cleared
    | _ => exact h.entry
  · obtain ⟨x, hx, heir⟩ := hs.runs_of hx'
    rcases hs.cleared_of hc with hc | ⟨y, -, hy, live⟩
    · exact h.cleared run x hx (heir.generation.symm.trans hg) word hc
    · obtain rfl : x' = y := Option.some.inj (hx'.1.symm.trans hy)
      rw [aborted run x' hx' hg] at live
      cases live

/-! ## After a stop -/

/-- The race when a timer has been stopped. -/
def stopped (w : Race) (id : TimerId) (now : Instant) : Race := { w with runner := w.runner.enter now (.stop id) }

theorem runner_stopped (w : Race) (id : TimerId) (now : Instant) : (w.stopped id now).runner = w.runner.stop id now := rfl

/-- A word that comes late when the timer is stopped: a run of its generation has looked at its abort, and is about
to say it. -/
def LateWord (w : Race) (id : TimerId) (word : Word) : Prop :=
  ∃ run x, w.runner.Runs id run x ∧ x.generation = (w.runner.entryOf id).generation ∧ w.cleared run = some word

theorem LateWord.unique (h : w.runner.Ordered id) {word word' : Word} (hw : w.LateWord id word)
    (hw' : w.LateWord id word') : word' = word := by
  obtain ⟨run, x, hx, hg, hc⟩ := hw
  obtain ⟨run', x', hx', hg', hc'⟩ := hw'
  obtain rfl := h.once run run' x x' hx hx' (hg.trans hg'.symm)
  exact Option.some.inj (hc'.symm.trans hc)

theorem isAtRest_stopped (h : w.runner.Ordered id) {e : RunEntry} (he : w.runner.entry? id = some e)
    (active : e.status ≠ .idle) : (w.stopped id now).IsAtRest id (w.LateWord id) e.generation := by
  have entryOf : w.runner.entryOf id = e := Runner.entryOf_of_some he
  refine ⟨⟨e.stopped now, ?_, RunEntry.isAtRest_stopped active⟩, fun run x' hx' hg => ?_,
    fun run x' hx' hg word hc => ?_⟩
  · rw [runner_stopped, Runner.entry?_stop, if_pos rfl, he]
    rfl
  · have hx := hx'.1
    rw [runner_stopped, Runner.run?_stop] at hx
    split at hx
    · obtain ⟨x, -, rfl⟩ := Option.map_eq_some_iff.1 hx
      rfl
    · rename_i other
      cases ha : x'.signals.aborted with
      | true => rfl
      | false =>
        have held := h.held run x' ⟨hx, hx'.2⟩ (by rw [entryOf, hg]) ha
        exact absurd ((w.runner.token?_eq_entryOf id).trans held) other
  · have heirs : w.runner.Heirs (w.stopped id now).runner := Runner.heirs_enter (s := .stop id) (by simp)
    obtain ⟨x, hx, heir⟩ := heirs.runs_of hx'
    exact ⟨run, x, hx, by rw [entryOf, ← hg, heir.generation], hc⟩

/-- What is read of a timer is what a stop leaves, or what a word of its run has made of that. -/
def Reads (w : Race) (id : TimerId) (said : Option Word) : Prop :=
  ∀ t, ∃ elapsed, w.runner.snapshot id t = .afterStop elapsed said

theorem reads_of_entry {said : Option Word} {e : RunEntry} (he : w.runner.entry? id = some e)
    (h : ∀ t, e.snapshot t = .afterStop (e.stopwatch.elapsedMs t) said) : w.Reads id said := by
  intro t
  refine ⟨e.stopwatch.elapsedMs t, ?_⟩
  unfold Runner.snapshot
  rw [he]
  exact h t

theorem Reads.unique {said said' : Option Word} (h : w.Reads id said) (h' : w.Reads id said') : said = said' := by
  obtain ⟨elapsed, h⟩ := h ⟨0⟩
  obtain ⟨elapsed', h'⟩ := h' ⟨0⟩
  exact RunState.afterStop_inj (h.symm.trans h')

/-- What is read of a timer at rest, when no more than one word comes late. -/
theorem IsAtRest.reads (h : w.IsAtRest id late g) (unique : ∀ word word', late word → late word' → word' = word) :
    w.Reads id none ∨ ∃ word, late word ∧ w.Reads id (some word) := by
  obtain ⟨e, he, rest⟩ := h.entry
  rcases rest.position with ⟨step, left⟩ | ⟨step, remaining, hl, hstep, hleft⟩
  · rcases rest.outcome with outcome | ⟨hl, outcome⟩
    · refine .inl (reads_of_entry he fun t => ?_)
      simp [RunEntry.snapshot, RunState.afterStop, rest.status, step, left, outcome]
    · refine .inr ⟨_, hl, reads_of_entry he fun t => ?_⟩
      simp [RunEntry.snapshot, RunState.afterStop, rest.status, step, left, outcome]
  · rcases rest.outcome with outcome | ⟨hl', -⟩
    · refine .inr ⟨_, hl, reads_of_entry he fun t => ?_⟩
      simp [RunEntry.snapshot, RunState.afterStop, rest.status, hstep, hleft, outcome]
    · cases unique _ _ hl hl'

/-- A late word can be said right after the stop. -/
theorem LateWord.read {ok : Scope → Prop} (now : Instant) {e : RunEntry} (he : w.runner.entry? id = some e)
    (active : e.status ≠ .idle) {word : Word} (h : w.LateWord id word) :
    ∃ w', Later ok (w.stopped id now) w' ∧ w'.Reads id (some word) := by
  obtain ⟨run, x, ⟨hx, hid⟩, hg, hc⟩ := h
  rw [Runner.entryOf_of_some he] at hg
  obtain ⟨y, hy, heir⟩ : ∃ y, (w.stopped id now).runner.run? run = some y ∧ x.Heir y := by
    rw [runner_stopped, Runner.run?_stop, hx]
    split
    · exact ⟨_, rfl, rfl, rfl, fun _ => rfl⟩
    · exact ⟨x, rfl, rfl, rfl, fun h => h⟩
  obtain rfl := Runner.id_of_run? _ hy
  obtain rfl := heir.timer.trans hid
  refine ⟨_, .single (.say now hy hc), ?_⟩
  have entry : (w.stopped y.timer now).runner.entry? y.timer = some (e.stopped now) := by
    rw [runner_stopped, Runner.entry?_stop, if_pos rfl, he]
    rfl
  have status : (e.stopped now).status = .idle := rfl
  have outcome : (e.stopped now).lastOutcome = some .aborted := if_neg active
  have generation : (e.stopped now).generation = y.generation := hg.symm.trans heir.generation.symm
  cases word with
  | report step remaining =>
    have heard := (w.stopped y.timer now).runner.entry?_update now y.timer
      (fun e => e.reported y.generation step remaining) y.timer
    rw [if_pos rfl, entry] at heard
    refine reads_of_entry heard fun t => ?_
    simp [RunEntry.snapshot, RunEntry.reported, generation, RunState.afterStop, status, outcome]
  | through =>
    have heard := ((w.stopped y.timer now).runner.leave y.id).entry?_update now y.timer
      (fun e => e.finished y.generation) y.timer
    rw [if_pos rfl, show Runner.entry? ((w.stopped y.timer now).runner.leave y.id) y.timer = _ from entry] at heard
    refine reads_of_entry heard fun t => ?_
    simp [RunEntry.snapshot, RunEntry.finished, RunEntry.clearPosition, generation, RunState.afterStop]

/-- A stop of an active timer that was never forgotten is final, until the timer is begun anew or let go, exactly if
no word comes late. One word at most does, and what is read of the timer is what the stop or that word has left. -/
theorem stop_final_iff (now : Instant) (h : Reached (· ≠ .drop id) w)
    (active : (w.runner.snapshot id now).status ≠ .idle) :
    ((∀ w', Later (fun s => ¬ s.Renews id) (w.stopped id now) w' → w'.Reads id none) ↔
        ∀ word, ¬ w.LateWord id word) ∧
      (∀ word word', w.LateWord id word → w.LateWord id word' → word' = word) ∧
      ∀ w', Later (fun s => ¬ s.Renews id) (w.stopped id now) w' →
        w'.Reads id none ∨ ∃ word, w.LateWord id word ∧ w'.Reads id (some word) := by
  have ordered := h.ordered
  obtain ⟨e, he, hs⟩ : ∃ e, w.runner.entry? id = some e ∧ e.status ≠ .idle := by
    unfold Runner.snapshot at active
    cases he : w.runner.entry? id with
    | none => rw [he] at active; exact absurd rfl active
    | some e => rw [he] at active; exact ⟨e, rfl, active⟩
  have unique : ∀ word word', w.LateWord id word → w.LateWord id word' → word' = word :=
    fun _ _ => LateWord.unique ordered
  have reads : ∀ w', Later (fun s => ¬ s.Renews id) (w.stopped id now) w' →
      w'.Reads id none ∨ ∃ word, w.LateWord id word ∧ w'.Reads id (some word) := by
    intro w' later
    suffices rest : w'.IsAtRest id (w.LateWord id) e.generation from rest.reads unique
    induction later with
    | refl => exact isAtRest_stopped ordered he hs
    | tail _ step ih => exact ih.step step
  refine ⟨⟨fun final word late => ?_, fun silent w' later => ?_⟩, unique, reads⟩
  · obtain ⟨w', later, said⟩ := late.read now he hs
    cases (final w' later).unique said
  · rcases reads w' later with final | ⟨word, late, -⟩
    · exact final
    · exact absurd late (silent word)

/-- A timer that only waits, for a minute. -/
def soak : Timer := { id := "soak", name := "Soak", steps := [.leaf "wait" (.wait (.ofNat 1) .minutes)] }

/-- Its run when it begins, and when it has entered the wait. -/
def soakRun : Run := ⟨1, "soak", 1, {}, .ready soak.steps⟩

def soakWaits : Run := { soakRun with activity := .within (.entering (.leaf "wait" (.wait (.ofNat 1) .minutes))) [] }

/-- The table when the timer has begun. -/
def soakBegun : Runner :=
  ({ equipment := ⟨fun _ _ => .endless, .off, "", fun _ => ⟨0⟩⟩ } : Runner).beginRun soak ⟨0⟩

/-- The run has entered the wait, and has just looked whether it is aborted. -/
def soakEntered : Race :=
  { runner := soakBegun.moved soakRun ⟨soakWaits.activity, {}, [.progress "wait" none]⟩
    words := fun _ => []
    cleared := Function.update (fun _ => none) 1 (some (.report "wait" none)) }

theorem reached_soakEntered : Reached (· ≠ .drop "soak") soakEntered := by
  refine ⟨soakBegun.equipment, ?_⟩
  have begun : Step (· ≠ .drop "soak") (ofRunner { equipment := soakBegun.equipment }) (ofRunner soakBegun) :=
    .scope ⟨0⟩ (.begin soak) (by simp)
  -- it has moved, but has not looked yet
  let unsaid : Race := { soakEntered with
    words := Function.update (fun _ => []) 1 [.report "wait" none], cleared := fun _ => none }
  have moved : Step (· ≠ .drop "soak") (ofRunner soakBegun) unsaid :=
    .move ⟨0⟩ true (x := soakRun) rfl ⟨rfl, rfl⟩ rfl rfl
  have next : unsaid.words soakWaits.id = [.report "wait" none] := rfl
  have said : Function.update unsaid.words 1 [] = soakEntered.words := by
    rw [Function.update_idem]
    exact Function.update_eq_self 1 _
  refine .tail (.tail (.single begun) moved) ?_
  show Step _ _ { soakEntered with words := soakEntered.words }
  rw [← said]
  exact .clear (x := soakWaits) rfl next rfl rfl

/-- A stop that comes just then leaves the timer idle, and then it reads as if it were in its wait. -/
theorem stop_final_iff_soak :
    ∃ w', Later (fun s => ¬ s.Renews "soak") (soakEntered.stopped "soak" ⟨0⟩) w' ∧
      w'.Reads "soak" (some (.report "wait" none)) := by
  obtain ⟨final, unique, reads⟩ := stop_final_iff ⟨0⟩ reached_soakEntered (by decide +kernel)
  have late : soakEntered.LateWord "soak" (.report "wait" none) := ⟨1, _, ⟨rfl, rfl⟩, rfl, rfl⟩
  by_contra never
  refine final.1 (fun w' later => ?_) _ late
  rcases reads w' later with stays | ⟨word, late', said⟩
  · exact stays
  · rw [unique _ _ late late'] at said
    exact absurd ⟨w', later, said⟩ never

end Race

end StepTimer
