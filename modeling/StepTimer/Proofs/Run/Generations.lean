/-
The generations of a timer, when calls and runs are on several threads. They only grow while the timer is not
forgotten, so that each has one run (`Ordered.once`), and a run that was not aborted is the one that the entry
holds, if it is of the generation of the entry (`Ordered.held`).
-/
import StepTimer.Proofs.Run.Race

namespace StepTimer

/-- What a run may have become: it is of the same timer and generation, and no abort is taken back. -/
structure Run.Heir (x x' : Run) : Prop where
  timer : x'.timer = x.timer
  generation : x'.generation = x.generation
  aborted : x.signals.aborted = true → x'.signals.aborted = true

/-- The generation of an entry, and the run it holds. -/
def RunEntry.hold (e : RunEntry) : Nat × Option RunId := (e.generation, e.token)

namespace Runner

variable {r r' : Runner} {now : Instant} {run run' : RunId} {id : TimerId} {x x' : Run}

/-! ## What becomes of the runs -/

/-- The runs of a table were there before. -/
structure Heirs (r r' : Runner) : Prop where
  runs : ∀ run x', r'.run? run = some x' → ∃ x, r.run? run = some x ∧ x.Heir x'
  nextRun : r.nextRun ≤ r'.nextRun

theorem Heirs.of_kin (h : ∀ run, Kin (r.run? run) (r'.run? run)) (next : r.nextRun ≤ r'.nextRun) : r.Heirs r' := by
  refine ⟨fun run x' hx' => ?_, next⟩
  have kin := h run
  rw [hx'] at kin
  obtain ⟨x, hx, hk⟩ := kin.of_some
  exact ⟨x, hx, hk.timer, hk.generation, hk.aborted⟩

theorem heirs_of_eq (h : ∀ run, r'.run? run = r.run? run) (next : r'.nextRun = r.nextRun) : r.Heirs r' :=
  .of_kin (fun run => by rw [h]; exact .refl _) (Nat.le_of_eq next.symm)

theorem heirs_update (id : TimerId) (f : RunEntry → RunEntry) : r.Heirs (r.update id now f) :=
  heirs_of_eq (fun run => by simp) (by simp)

theorem heirs_moved (m : Move) : r.Heirs (r.moved x m) := by
  refine ⟨fun run x' hx' => ?_, Nat.le_refl _⟩
  rw [run?_moved] at hx'
  split at hx'
  · rename_i hrun
    subst hrun
    obtain ⟨y, hy, rfl⟩ := Option.map_eq_some_iff.1 hx'
    exact ⟨y, hy, rfl, rfl, fun h => h⟩
  · exact ⟨x', hx', rfl, rfl, fun h => h⟩

theorem heirs_wake : r.Heirs (r.wake run) := by
  refine ⟨fun run' x' hx' => ?_, Nat.le_refl _⟩
  obtain ⟨x, hx, rfl | rfl⟩ := run_of_wake r hx'
  · exact ⟨x', hx, rfl, rfl, fun h => h⟩
  · exact ⟨x, hx, rfl, rfl, fun h => h⟩

theorem heirs_leave : r.Heirs (r.leave run) := by
  refine ⟨fun run' x' hx' => ?_, Nat.le_refl _⟩
  rw [run?_leave] at hx'
  split at hx'
  · cases hx'
  · exact ⟨x', hx', rfl, rfl, fun h => h⟩

theorem Heirs.trans {r'' : Runner} (h : r.Heirs r') (h' : r'.Heirs r'') : r.Heirs r'' := by
  refine ⟨fun run x'' hx'' => ?_, Nat.le_trans h.nextRun h'.nextRun⟩
  obtain ⟨x', hx', heir'⟩ := h'.runs run x'' hx''
  obtain ⟨x, hx, heir⟩ := h.runs run x' hx'
  exact ⟨x, hx, heir'.timer.trans heir.timer, heir'.generation.trans heir.generation,
    fun ha => heir'.aborted (heir.aborted ha)⟩

theorem heirs_hear (word : Word) : r.Heirs (r.hear x now word) := by
  cases word with
  | report step remaining => exact heirs_update _ _
  | through => exact heirs_leave.trans (heirs_update _ _)

/-- The entry of a timer, a blank one if it has none. -/
def entryOf (r : Runner) (id : TimerId) : RunEntry := (r.entry? id).getD {}

theorem entryOf_of_some {e : RunEntry} (h : r.entry? id = some e) : r.entryOf id = e := by
  unfold entryOf; rw [h]; rfl

theorem token?_eq_entryOf (r : Runner) (id : TimerId) : r.token? id = (r.entryOf id).token := by
  unfold token? entryOf
  cases r.entry? id <;> rfl

/-- The run that a timer begins. -/
def newRun (r : Runner) (t : Timer) : Run := ⟨r.nextRun, t.id, (r.entryOf t.id).generation + 1, {}, .ready t.steps⟩

/-- A run that is there when a timer has begun anew is the new one, or was there before. -/
theorem run_of_beginRun {t : Timer} (h : (r.beginRun t now).run? run = some x') :
    (∃ x, r.run? run = some x ∧ x.Heir x') ∨ run = r.nextRun ∧ x' = r.newRun t := by
  rw [run?_beginRun, Option.or_eq_some_iff] at h
  rcases h with h | ⟨-, h⟩
  · left
    split at h
    · obtain ⟨x, hx, rfl⟩ := Option.map_eq_some_iff.1 h
      exact ⟨x, hx, rfl, rfl, fun _ => rfl⟩
    · exact ⟨x', h, rfl, rfl, fun h => h⟩
  · right
    split at h
    · rename_i hrun
      cases h
      exact ⟨hrun.symm, rfl⟩
    · cases h

theorem heirs_enter {s : Scope} (h : ∀ t, s ≠ .begin t) : r.Heirs (r.enter now s) := by
  cases s with
  | stop id => exact .of_kin (fun run => kin_stop r now run id) (by simp [enter])
  | zero id => exact heirs_update id _
  | drop id => exact heirs_of_eq (fun run => by simp [enter]) (by simp [enter])
  | begin t => exact absurd rfl (h t)
  | resume id => exact .of_kin (fun run => kin_resume r now run id) (by simp [enter, resume])
  | pause t =>
    refine .of_kin (fun run => kin_pause r now run t) ?_
    show r.nextRun ≤ (r.pause t now).nextRun
    unfold pause
    split <;> simp
  | watch id again => exact heirs_of_eq (fun _ => rfl) rfl
  | hush => exact heirs_of_eq (fun _ => rfl) rfl

/-! ## Generations that only grow -/

/-- A run of a timer is in the table. -/
def Runs (r : Runner) (id : TimerId) (run : RunId) (x : Run) : Prop := r.run? run = some x ∧ x.timer = id

theorem Heirs.runs_of (h : r.Heirs r') (hx : r'.Runs id run x') : ∃ x, r.Runs id run x ∧ x.Heir x' := by
  obtain ⟨x, hx, heir⟩ := h.runs run x' hx.1
  exact ⟨x, ⟨hx, heir.timer.symm.trans ‹r'.Runs id run x'›.2⟩, heir⟩

/-- A generation of a timer has one run, which the entry holds or which was aborted. -/
structure Ordered (r : Runner) (id : TimerId) : Prop where
  fresh : ∀ run x, r.run? run = some x → run < r.nextRun
  begun : ∀ run x, r.Runs id run x → x.generation ≤ (r.entryOf id).generation
  held : ∀ run x, r.Runs id run x → x.generation = (r.entryOf id).generation → x.signals.aborted = false →
    (r.entryOf id).token = some run
  once : ∀ run run' x x', r.Runs id run x → r.Runs id run' x' → x.generation = x'.generation → run = run'

theorem ordered_empty (equipment : Equipment) (id : TimerId) : Ordered { equipment } id := by
  refine ⟨?_, ?_, ?_, ?_⟩
  · rintro _ _ ⟨⟩
  · rintro _ _ ⟨⟨⟩, -⟩
  · rintro _ _ ⟨⟨⟩, -⟩
  · rintro _ _ _ _ ⟨⟨⟩, -⟩

theorem Ordered.of_heirs (h : r.Ordered id) (heirs : ∀ run x', r'.Runs id run x' → ∃ x, r.Runs id run x ∧ x.Heir x')
    (fresh : ∀ run x, r'.run? run = some x → run < r'.nextRun)
    (generation : (r'.entryOf id).generation = (r.entryOf id).generation)
    (held : ∀ run x', r'.Runs id run x' → x'.generation = (r.entryOf id).generation → x'.signals.aborted = false →
      (r.entryOf id).token = some run → (r'.entryOf id).token = some run) : r'.Ordered id := by
  refine ⟨fresh, fun run x' hx' => ?_, fun run x' hx' hg live => ?_, fun run run' x' y' hx' hy' hg => ?_⟩
  · obtain ⟨x, hx, heir⟩ := heirs run x' hx'
    rw [generation, heir.generation]
    exact h.begun run x hx
  · obtain ⟨x, hx, heir⟩ := heirs run x' hx'
    rw [generation] at hg
    refine held run x' hx' hg live (h.held run x hx (heir.generation ▸ hg) ?_)
    cases ha : x.signals.aborted with
    | true => rw [heir.aborted ha] at live; cases live
    | false => rfl
  · obtain ⟨x, hx, heirx⟩ := heirs run x' hx'
    obtain ⟨y, hy, heiry⟩ := heirs run' y' hy'
    exact h.once run run' x y hx hy (by rw [← heirx.generation, hg, heiry.generation])

theorem Heirs.fresh (heirs : r.Heirs r') (h : r.Ordered id) : ∀ run x, r'.run? run = some x → run < r'.nextRun := by
  intro run x' hx'
  obtain ⟨x, hx, -⟩ := heirs.runs run x' hx'
  exact Nat.lt_of_lt_of_le (h.fresh run x hx) heirs.nextRun

/-- Changes that begin no run, and leave the generation and the run of the entry as they are. -/
theorem Ordered.of_same (h : r.Ordered id) (heirs : r.Heirs r') (same : (r'.entryOf id).hold = (r.entryOf id).hold) :
    r'.Ordered id :=
  h.of_heirs (fun _ _ hx' => heirs.runs_of hx') (heirs.fresh h) (congrArg (·.1) same)
    fun _ _ _ _ _ ht => (congrArg (·.2) same).trans ht

theorem entryOf_eq (h : r'.entry? id = r.entry? id) : r'.entryOf id = r.entryOf id := by unfold entryOf; rw [h]

theorem Ordered.of_map (h : r.Ordered id) (heirs : r.Heirs r') {f : RunEntry → RunEntry} {id' : TimerId}
    (entry : r'.entry? id = if id = id' then (r.entry? id').map f else r.entry? id)
    (hf : ∀ e, (f e).hold = e.hold) : r'.Ordered id := by
  refine h.of_same heirs ?_
  split at entry
  · rename_i hid
    subst hid
    unfold entryOf
    rw [entry]
    cases r.entry? id with
    | none => rfl
    | some e => exact hf e
  · rw [entryOf_eq entry]

theorem Ordered.update (h : r.Ordered id) (id' : TimerId) {f : RunEntry → RunEntry} (hf : ∀ e, (f e).hold = e.hold) :
    (r.update id' now f).Ordered id :=
  h.of_map (heirs_update id' f) (r.entry?_update now id' f id) hf

/-- A stop aborts the run that it takes from the entry. -/
theorem Ordered.stop (h : r.Ordered id) (id' : TimerId) : (r.stop id' now).Ordered id := by
  have heirs : r.Heirs (r.stop id' now) := heirs_enter (s := .stop id') (by simp)
  have entry := r.entry?_stop now id' id
  split at entry
  · rename_i hid
    subst hid
    refine h.of_heirs (fun _ _ hx' => heirs.runs_of hx') (heirs.fresh h) ?_ fun run x' hx' hg live ht => ?_
    · unfold entryOf
      rw [entry]
      cases r.entry? id <;> rfl
    · have hx := hx'.1
      rw [run?_stop, if_pos ((r.token?_eq_entryOf id).trans ht)] at hx
      obtain ⟨x, -, rfl⟩ := Option.map_eq_some_iff.1 hx
      cases live
  · exact h.of_same heirs (by rw [entryOf_eq entry])

/-- A run of a timer that has begun anew is the new one, or of an older generation. -/
theorem Ordered.run_of_beginRun {t : Timer} (h : r.Ordered t.id) (hx' : (r.beginRun t now).Runs t.id run x') :
    (∃ x, r.Runs t.id run x ∧ x.Heir x' ∧ x'.generation ≤ (r.entryOf t.id).generation) ∨
      run = r.nextRun ∧ x'.generation = (r.entryOf t.id).generation + 1 := by
  rcases Runner.run_of_beginRun hx'.1 with ⟨x, hx, heir⟩ | ⟨rfl, rfl⟩
  · have hx : r.Runs t.id run x := ⟨hx, heir.timer.symm.trans hx'.2⟩
    exact .inl ⟨x, hx, heir, heir.generation ▸ h.begun run x hx⟩
  · exact .inr ⟨rfl, rfl⟩

theorem Ordered.fresh_beginRun (h : r.Ordered id) {t : Timer} (hx : (r.beginRun t now).run? run = some x) :
    run < (r.beginRun t now).nextRun := by
  rw [nextRun_beginRun]
  rcases Runner.run_of_beginRun hx with ⟨x, hx, -⟩ | ⟨rfl, -⟩
  · exact Nat.lt_succ_of_lt (h.fresh run x hx)
  · exact Nat.lt_succ_self _

/-- A new run is of a generation of its own. -/
theorem Ordered.beginRun (h : r.Ordered id) (t : Timer) : (r.beginRun t now).Ordered id := by
  have entry := r.entry?_beginRun now t id
  by_cases hid : id = t.id
  · subst hid
    rw [if_pos rfl] at entry
    have generation : ((r.beginRun t now).entryOf t.id).generation = (r.entryOf t.id).generation + 1 := by
      rw [entryOf_of_some entry]; rfl
    have token : ((r.beginRun t now).entryOf t.id).token = some r.nextRun := by
      rw [entryOf_of_some entry]; rfl
    constructor
    case fresh => exact fun run x => h.fresh_beginRun
    case begun =>
      intro run x' hx'
      rw [generation]
      rcases h.run_of_beginRun hx' with ⟨x, -, -, older⟩ | ⟨-, new⟩ <;> omega
    case held =>
      intro run x' hx' hg live
      rw [generation] at hg
      rcases h.run_of_beginRun hx' with ⟨x, -, -, older⟩ | ⟨rfl, -⟩
      · omega
      · exact token
    case once =>
      intro run run' x' y' hx' hy' hg
      rcases h.run_of_beginRun hx' with ⟨x, hx, heirx, olderx⟩ | ⟨rfl, newx⟩ <;>
        rcases h.run_of_beginRun hy' with ⟨y, hy, heiry, oldery⟩ | ⟨rfl, newy⟩
      · exact h.once run run' x y hx hy (by rw [← heirx.generation, hg, heiry.generation])
      · omega
      · omega
      · rfl
  · rw [if_neg hid] at entry
    have same : (r.beginRun t now).entryOf id = r.entryOf id := entryOf_eq entry
    refine h.of_heirs (fun run x' hx' => ?_) (fun run x => h.fresh_beginRun) (by rw [same])
      fun _ _ _ _ _ ht => by rwa [same]
    rcases Runner.run_of_beginRun hx'.1 with ⟨x, hx, heir⟩ | ⟨-, rfl⟩
    · exact ⟨x, ⟨hx, heir.timer.symm.trans hx'.2⟩, heir⟩
    · exact absurd hx'.2.symm hid

theorem Ordered.enter (h : r.Ordered id) {s : Scope} (hs : s ≠ .drop id) : (r.enter now s).Ordered id := by
  cases s with
  | stop id' => exact h.stop id'
  | zero id' => exact h.update id' fun _ => rfl
  | drop id' =>
    refine h.of_same (heirs_enter (by simp)) (congrArg RunEntry.hold (entryOf_eq ?_))
    exact (r.entry?_drop now id' id).trans (if_neg fun hid => hs (by rw [hid]))
  | begin t => exact h.beginRun t
  | resume id' =>
    exact h.of_map (heirs_enter (by simp)) (r.entry?_resume now id' id) fun e => by simp [RunEntry.hold]
  | pause t =>
    by_cases hm : t.mode = .stopwatch
    · show (r.pause t now).Ordered id
      rw [Runner.pause, if_pos hm]
      exact h.update t.id fun _ => rfl
    · exact h.of_map (heirs_enter (by simp)) (r.entry?_pause now hm id) fun e => by simp [RunEntry.hold]
  | watch id' again =>
    refine h.of_same (heirs_enter (by simp)) ?_
    have entry := r.entry?_upsert now id' (fun e => if again then e.restartWatch now else e.startWatch now) id
    unfold entryOf
    rw [show Runner.entry? (r.enter now (.watch id' again)) id = _ from entry]
    split
    · rename_i hid
      subst hid
      cases again <;> rfl
    · rfl
  | hush => exact h.of_same (heirs_enter (by simp)) rfl

/-- A run takes from the entry no run but itself. -/
theorem Ordered.hear (h : r.Ordered id) (hx : r.run? x.id = some x) (word : Word) : (r.hear x now word).Ordered id := by
  cases word with
  | report step remaining => exact h.update x.timer fun e => by simp [RunEntry.hold]
  | through =>
    have entry : Runner.entry? (r.hear x now .through) id = if id = x.timer then (r.entry? x.timer).map _ else r.entry? id :=
      (r.leave x.id).entry?_update now x.timer _ id
    have heirs : r.Heirs (r.hear x now .through) := heirs_hear .through
    split at entry
    · rename_i hid
      subst hid
      refine h.of_heirs (fun _ _ hx' => heirs.runs_of hx') (heirs.fresh h) ?_ fun run y hy hg live ht => ?_
      · unfold entryOf
        rw [entry]
        cases r.entry? x.timer with
        | none => rfl
        | some e => simp [RunEntry.finished]; split <;> rfl
      · have other : run ≠ x.id := by
          rintro rfl
          have gone := hy.1
          rw [hear, run?_update, run?_leave, if_pos rfl] at gone
          cases gone
        obtain ⟨y', hy', heir⟩ := heirs.runs_of hy
        have older : (r.entryOf x.timer).generation ≠ x.generation := fun hg' =>
          other (h.once run x.id y' x hy' ⟨hx, rfl⟩ (by rw [← heir.generation, hg, hg']))
        unfold entryOf at ht older ⊢
        rw [entry]
        cases he : r.entry? x.timer with
        | none => rw [he] at ht; cases ht
        | some e =>
          rw [he] at ht older
          simpa [RunEntry.finished, if_neg (show e.generation ≠ x.generation from older)] using ht
    · exact h.of_same heirs (congrArg RunEntry.hold (entryOf_eq entry))

end Runner

namespace Race

open Runner (Scope)

variable {ok : Scope → Prop} {w w' : Race} {id : TimerId} {now : Instant}

theorem Step.ordered (hs : Step (· ≠ .drop id) w w') (h : w.runner.Ordered id) : w'.runner.Ordered id := by
  cases hs with
  | scope now s hs => exact h.enter hs
  | move now coin => exact h.of_same (Runner.heirs_moved _) rfl
  | clear => exact h
  | mute => exact h
  | conclude => exact h
  | leave => exact h.of_same Runner.heirs_leave rfl
  | say now hx => exact h.hear hx _
  | wake run => exact h.of_same Runner.heirs_wake rfl
  | dismiss notices => exact h.of_same (Runner.heirs_of_eq (fun _ => rfl) rfl) rfl

/-- While a timer is not forgotten its generations only grow. -/
theorem Reached.ordered (h : Reached (· ≠ .drop id) w) : w.runner.Ordered id := by
  obtain ⟨equipment, later⟩ := h
  induction later with
  | refl => exact Runner.ordered_empty equipment id
  | tail _ hs ih => exact hs.ordered ih

end Race

end StepTimer
