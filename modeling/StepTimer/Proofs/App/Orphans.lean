/-
Runs that outlive their timer. A request to delete a timer takes it out of the registry first and has it
forgotten by the table of runs after that; a request to start it works on a copy that it has taken before. So a
start whose copy is older than the deletion begins a run of a timer that is there no more, and that no request
finds again.

Two invariants carry the proof. Names are given once, so a timer that is gone does not come back and is forgotten
once; and from then on the table of runs has an entry for it exactly when one of the copies that were about at
that instant has been used.
-/
import StepTimer.Proofs.App.Scopes
import Mathlib.Logic.Function.Basic
import Mathlib.Logic.Relation

namespace StepTimer

open Runner (Op)

namespace Runner

variable {r r' : Runner} {now : Instant} {id id' : TimerId} {op : Op}

/-! ## Entries that are made -/

theorem isSome_entry?_start (r : Runner) (t : Timer) (now : Instant) : (Runner.entry? (r.start t now) t.id).isSome = true := by
  unfold start
  split
  · rw [entry?_upsert, if_pos rfl]; rfl
  · rcases he : r.entry? t.id with _ | e
    · rw [entry?_beginRun, if_pos rfl]; rfl
    · dsimp only
      split
      · rw [entry?_resume, if_pos rfl, he]; rfl
      · split
        · rw [he]; rfl
        · rw [entry?_beginRun, if_pos rfl]; rfl

theorem isSome_entry?_restart (r : Runner) (t : Timer) (now : Instant) :
    (Runner.entry? (r.restart t now) t.id).isSome = true := by
  unfold restart
  split
  · rw [entry?_upsert, if_pos rfl]; rfl
  · rw [entry?_beginRun, if_pos rfl]; rfl

theorem isSome_entry?_update (id' : TimerId) (f : RunEntry → RunEntry) :
    (Runner.entry? (r.update id' now f) id).isSome = (r.entry? id).isSome := by
  rw [entry?_update]
  split
  next h => rw [h, Option.isSome_map]
  next => rfl

/-- Of the calls about a timer only a start and a restart make an entry, and only a forget drops one. -/
theorem isSome_entry?_perform (h : r.Tied) (about : op.about? = some id') (keeps : op ≠ .forget id) :
    (Runner.entry? (r.perform now op) id).isSome = true ↔ (r.entry? id).isSome = true ∨ op.starts? = some id := by
  by_cases hid : id' = id
  · subst hid
    cases op with
    | start t => cases about; simp [Runner.perform, isSome_entry?_start, Op.starts?]
    | restart t => cases about; simp [Runner.perform, isSome_entry?_restart, Op.starts?]
    | resume id => cases about; simp [Runner.perform, entry?_resume, Op.starts?]
    | pause t =>
      cases about
      have kept : (Runner.entry? (r.pause t now) t.id).isSome = (r.entry? t.id).isSome := by
        unfold pause
        split
        · exact isSome_entry?_update _ _
        · rw [entry?_silenceAny, isSome_entry?_update, entry?_signalAny]
      simp [Runner.perform, kept, Op.starts?]
    | stop id => cases about; simp [Runner.perform, entry?_stop, Op.starts?]
    | reset id => cases about; simp [Runner.perform, Runner.reset, isSome_entry?_update, entry?_stop, Op.starts?]
    | mark id name => cases about; simp [Runner.perform, Op.starts?]
    | forget id => cases about; exact absurd rfl keeps
    | stopAll => cases about
  · have other : op.starts? ≠ some id := fun h => by
      cases op with
      | start t => cases h; cases about; exact hid rfl
      | restart t => cases h; cases about; exact hid rfl
      | _ => cases h
    rw [(spares_perform h about).entries id (Ne.symm hid)]
    simp [other]

theorem Op.about_of_starts (h : op.starts? = some id) : op.about? = some id := by
  cases op <;> first | exact h | cases h

/-! ## Runs that go on by themselves -/

/-- What happens to the table of runs between the calls. -/
inductive Goes (r : Runner) : Runner → Prop
  | move {run : RunId} {coin : Bool} {now : Instant} {r' : Runner} {events : List Event}
      (h : r.advance run coin now = some (r', events)) : Goes r r'
  | wake (run : RunId) : Goes r (r.wake run)
  | dismiss (notices : List Nat) : Goes r (r.dismissed notices)

theorem Goes.tied (h : r.Tied) (hg : Goes r r') : r'.Tied := by
  cases hg with
  | move ha => exact h.advance _ ha
  | wake run => exact h.modifyActivity run Activity.wake
  | dismiss => exact ⟨h.held, h.fresh⟩

/-- Runs make no entries and drop none. -/
theorem Goes.isSome_entry? (hg : Goes r r') (id : TimerId) : (r'.entry? id).isSome = (r.entry? id).isSome := by
  cases hg with
  | wake run => rfl
  | dismiss => rfl
  | @move run coin now r' events ha =>
    obtain ⟨x, hx, ⟨-, rfl, -⟩ | ⟨-, m, -, rfl, -⟩⟩ := advance_cases r now ha
    · rw [entry?_finish]
      split
      next h => rw [h.2, Option.isSome_map]
      next => rfl
    · refine apply_induction r now x m (P := fun r' => (r'.entry? id).isSome = (r.entry? id).isSome) rfl
        fun r' step remaining _ same => ?_
      rw [entry?_report, ← same]
      split
      next h => rw [h.2, Option.isSome_map]
      next => rfl

end Runner

namespace Stage

variable {g : Stage} {op : Op}

/-- A request is about to start or to restart a timer, of which it has a copy. -/
def Begins (g : Stage) (id : TimerId) : Prop := ∃ op, g.op? = some op ∧ op.starts? = some id

theorem about_of_op? (h : g.op? = some op) : ∃ id, op.about? = some id := by
  cases g with
  | copied action t => cases action <;> cases h <;> exact ⟨_, rfl⟩
  | removed id => cases h; exact ⟨_, rfl⟩
  | cleared t => cases h; exact ⟨_, rfl⟩
  | _ => cases h

theorem eq_removed_of_op? {id : TimerId} (h : g.op? = some (.forget id)) : g = .removed id := by
  cases g with
  | copied action t => cases action <;> cases h
  | removed id => cases h; rfl
  | cleared t => cases h
  | _ => cases h

end Stage

/-- The application with requests under way. -/
structure Traffic (ι : Type) where
  app : App
  stage : ι → Stage

namespace Traffic

variable {ι : Type} {s s' : Traffic ι} {i j : ι} {id : TimerId} {now : Instant}

/-- The application with requests none of which has begun. -/
def initial (a : App) (commands : ι → Command) : Traffic ι := ⟨a, fun i => .fresh (commands i)⟩

/-- The runs are in order, no name is given again, and a timer that is about to be forgotten is in no registry and
forgotten by one request. -/
structure Sound (s : Traffic ι) : Prop where
  tied : s.app.runner.Tied
  fresh : ∀ i, s.app.ids.Fresh (App.namesIn s.app.timers ++ (s.stage i).names)
  gone : ∀ i id, s.stage i = .removed id → s.app.timer? id = none
  once : ∀ i j id, s.stage i = .removed id → s.stage j = .removed id → i = j

theorem sound_initial {a : App} (tied : a.runner.Tied) (fresh : a.ids.Fresh (App.namesIn a.timers))
    (commands : ι → Command) : (initial a commands).Sound where
  tied := tied
  fresh i := by rw [show ((initial a commands).stage i).names = [] from rfl, List.append_nil]; exact fresh
  gone i id h := by cases h
  once i j id h := by cases h

theorem Sound.unnamed (h : s.Sound) (hi : s.stage i = .removed id) : s.app.ids.Fresh [id] :=
  (h.fresh i).mono fun x hx => List.mem_append_right _ (by rw [hi]; exact hx)

/-! ## Turns -/

variable [DecidableEq ι]

/-- A request has its next scope. -/
def scope (s : Traffic ι) (i : ι) (now : Instant) : Traffic ι :=
  ⟨((s.stage i).next now s.app).2, Function.update s.stage i ((s.stage i).next now s.app).1⟩

/-- What happens next: a request has a scope, or the runs go on. -/
inductive Turn (s : Traffic ι) : Traffic ι → Prop
  | scope (i : ι) (now : Instant) : Turn s (s.scope i now)
  | beside {r : Runner} (h : s.app.runner.Goes r) : Turn s { s with app := { s.app with runner := r } }

/-- What the turns of requests and runs lead to, in any order. -/
abbrev Later : Traffic ι → Traffic ι → Prop := Relation.ReflTransGen Turn

theorem stage_scope_self (s : Traffic ι) (i : ι) (now : Instant) :
    (s.scope i now).stage i = ((s.stage i).next now s.app).1 := Function.update_self ..

theorem stage_scope_of_ne (s : Traffic ι) (now : Instant) (h : j ≠ i) : (s.scope i now).stage j = s.stage j :=
  Function.update_of_ne h ..

theorem runner_scope (s : Traffic ι) (i : ι) (now : Instant) :
    (s.scope i now).app.runner = (s.stage i).op?.elim s.app.runner (s.app.runner.perform now) :=
  App.runner_next s.app now (s.stage i)

/-! ## Timers are deleted once -/

theorem tied_scope (h : s.Sound) (i : ι) (now : Instant) : (s.scope i now).app.runner.Tied := by
  rw [runner_scope]
  rcases (s.stage i).op? with _ | op
  · exact h.tied
  · exact h.tied.perform now op

theorem removed_scope (h : (s.scope i now).stage i = .removed id) :
    (s.app.timer? id).isSome = true ∧ (s.scope i now).app.timer? id = none := by
  rw [stage_scope_self] at h
  have called : ((s.stage i).next now s.app).1.op? = some (.forget id) := by rw [h]; rfl
  obtain ⟨t, found, about, gone⟩ := App.op?_next s.app now (s.stage i) called
  cases about
  exact ⟨by rw [found]; rfl, gone rfl⟩

theorem Sound.scope (h : s.Sound) (i : ι) (now : Instant) : (s.scope i now).Sound := by
  constructor
  case tied => exact tied_scope h i now
  case fresh =>
    intro j
    by_cases hj : j = i
    · subst hj
      rw [stage_scope_self]
      have next := App.fresh_next s.app now (s.stage j) [] (by rw [List.append_nil]; exact h.fresh j)
      rwa [List.append_nil] at next
    · rw [stage_scope_of_ne s now hj]
      refine (App.fresh_next s.app now (s.stage i) (s.stage j).names
        (((h.fresh i).append (h.fresh j)).mono fun x hx => ?_)).mono fun x hx => ?_
      · simp only [List.mem_append] at hx ⊢; tauto
      · simp only [List.mem_append] at hx ⊢; exact hx.imp_right .inr
  case gone =>
    intro j id hj
    by_cases hji : j = i
    · subst hji; exact (removed_scope hj).2
    · rw [stage_scope_of_ne s now hji] at hj
      exact App.absent_next now (s.stage i) (h.gone j id hj) (h.unnamed hj)
  case once =>
    -- a timer that is taken out was in the registry, so no other request has taken it out before
    have other {j k : ι} {id : TimerId} (hj : (s.scope i now).stage j = .removed id)
        (hk : (s.scope i now).stage k = .removed id) (hji : j = i) : j = k := by
      subst hji
      by_contra hne
      rw [stage_scope_of_ne s now (Ne.symm hne)] at hk
      have there := (removed_scope hj).1
      rw [h.gone k id hk] at there
      cases there
    intro j k id hj hk
    by_cases hji : j = i
    · exact other hj hk hji
    · by_cases hki : k = i
      · exact (other hk hj hki).symm
      · rw [stage_scope_of_ne s now hji] at hj
        rw [stage_scope_of_ne s now hki] at hk
        exact h.once j k id hj hk

theorem Sound.turn (h : s.Sound) (ht : Turn s s') : s'.Sound := by
  cases ht with
  | scope i now => exact h.scope i now
  | beside hg => exact ⟨hg.tied h.tied, h.fresh, h.gone, h.once⟩

theorem Sound.later (h : s.Sound) (hl : Later s s') : s'.Sound := by
  induction hl with
  | refl => exact h
  | tail _ ht ih => exact ih.turn ht

/-! ## Timers that are gone -/

/-- A timer is in no registry, its name is not given again, and no request is about to have it forgotten. -/
structure Missing (id : TimerId) (s : Traffic ι) : Prop extends Sound s where
  absent : s.app.timer? id = none
  unnamed : s.app.ids.Fresh [id]
  spent : ∀ i, s.stage i ≠ .removed id

theorem fresh_scope (h : s.Sound) (unnamed : s.app.ids.Fresh [id]) (i : ι) (now : Instant) :
    (s.scope i now).app.ids.Fresh [id] := by
  refine (App.fresh_next s.app now (s.stage i) [id]
    (((h.fresh i).append unnamed).mono fun x hx => ?_)).mono fun x hx => ?_
  · simp only [List.mem_append] at hx ⊢; tauto
  · exact List.mem_append_right _ (List.mem_append_right _ hx)

/-- When a timer has been forgotten it is missing for good. -/
theorem Sound.missing_scope (h : s.Sound) (hi : s.stage i = .removed id) (now : Instant) : (s.scope i now).Missing id := by
  refine ⟨h.scope i now, App.absent_next now _ (h.gone i id hi) (h.unnamed hi), fresh_scope h (h.unnamed hi) i now, ?_⟩
  intro j hj
  by_cases hji : j = i
  · subst hji
    rw [stage_scope_self, hi] at hj
    cases hj
  · rw [stage_scope_of_ne s now hji] at hj
    exact hji (h.once j i id hj hi)

theorem Missing.turn (h : s.Missing id) (ht : Turn s s') : s'.Missing id := by
  cases ht with
  | beside hg => exact ⟨h.toSound.turn (.beside hg), h.absent, h.unnamed, h.spent⟩
  | scope i now =>
    refine ⟨h.toSound.scope i now, App.absent_next now _ h.absent h.unnamed, fresh_scope h.toSound h.unnamed i now, ?_⟩
    intro j hj
    by_cases hji : j = i
    · subst hji
      have there := (removed_scope hj).1
      rw [h.absent] at there
      cases there
    · exact h.spent j (by rw [← stage_scope_of_ne s now hji]; exact hj)

/-- No request that has not seen a missing timer calls the table of runs about it. -/
theorem Missing.about_scope (h : s.Missing id) {op : Op} (hop : ((s.scope i now).stage i).op? = some op) :
    op.about? ≠ some id := by
  rw [stage_scope_self] at hop
  obtain ⟨t, found, about, -⟩ := App.op?_next s.app now (s.stage i) hop
  rw [about]
  rintro ⟨⟩
  rw [h.absent] at found
  cases found

/-- What is held of a timer that has been forgotten: an entry, when one of the copies that were about has been
used. -/
structure Forgotten (id : TimerId) (late : ι → Prop) (s : Traffic ι) : Prop extends Missing id s where
  copies : ∀ i, (s.stage i).Begins id → late i
  entry : (s.app.runner.entry? id).isSome = true ↔ ∃ i, late i ∧ ¬ (s.stage i).Begins id

/-- At the instant at which a timer is forgotten, no copy of it has been used. -/
theorem Sound.forgotten_scope (h : s.Sound) (hi : s.stage i = .removed id) (now : Instant) :
    (s.scope i now).Forgotten id fun j => (s.stage j).Begins id := by
  have spares (j : ι) (hj : (s.stage j).Begins id) : (s.scope i now).stage j = s.stage j := by
    refine stage_scope_of_ne s now fun hji => ?_
    obtain ⟨op, hop, hstarts⟩ := hj
    rw [hji, hi] at hop
    cases hop
    cases hstarts
  refine ⟨h.missing_scope hi now, fun j hj => ?_, ?_⟩
  · by_cases hji : j = i
    · subst hji
      obtain ⟨op, hop, -⟩ := hj
      rw [stage_scope_self, hi] at hop
      cases hop
    · rwa [stage_scope_of_ne s now hji] at hj
  · rw [runner_scope, hi]
    refine iff_of_false ?_ fun ⟨j, hj, used⟩ => used (by rw [spares j hj]; exact hj)
    show ¬ (Runner.entry? (s.app.runner.forget id now) id).isSome = true
    unfold Runner.forget
    rw [Runner.entry?_drop, if_pos rfl]
    exact Bool.noConfusion

theorem Forgotten.turn {late : ι → Prop} (h : s.Forgotten id late) (ht : Turn s s') : s'.Forgotten id late := by
  cases ht with
  | beside hg =>
    refine ⟨h.toMissing.turn (.beside hg), h.copies, ?_⟩
    show (Runner.entry? _ id).isSome = true ↔ _
    rw [hg.isSome_entry?]; exact h.entry
  | scope i now =>
    -- whatever the request does next, it is not about to begin a run of the timer
    have done : ¬ ((s.scope i now).stage i).Begins id := fun ⟨op, hop, hstarts⟩ =>
      h.about_scope hop (Op.about_of_starts hstarts)
    have others {j : ι} (hj : ((s.scope i now).stage j).Begins id) : j ≠ i ∧ (s.stage j).Begins id := by
      have hji : j ≠ i := by rintro rfl; exact done hj
      exact ⟨hji, by rwa [stage_scope_of_ne s now hji] at hj⟩
    have used : (∃ j, late j ∧ ¬ ((s.scope i now).stage j).Begins id) ↔
        (∃ j, late j ∧ ¬ (s.stage j).Begins id) ∨ (s.stage i).Begins id := by
      constructor
      · rintro ⟨j, hj, hne⟩
        by_cases hji : j = i
        · subst hji
          by_cases hb : (s.stage j).Begins id
          · exact .inr hb
          · exact .inl ⟨j, hj, hb⟩
        · rw [stage_scope_of_ne s now hji] at hne
          exact .inl ⟨j, hj, hne⟩
      · rintro (⟨j, hj, hne⟩ | hb)
        · exact ⟨j, hj, fun hb => hne (others hb).2⟩
        · exact ⟨i, h.copies i hb, done⟩
    refine ⟨h.toMissing.turn (.scope i now), fun j hj => h.copies j (others hj).2, ?_⟩
    rw [used, ← h.entry, runner_scope]
    rcases hop : (s.stage i).op? with _ | op
    · refine (or_iff_left ?_).symm
      rintro ⟨op, hop', -⟩
      rw [hop] at hop'; cases hop'
    · obtain ⟨id', about⟩ := Stage.about_of_op? hop
      have keeps : op ≠ .forget id := fun heq => h.spent i (Stage.eq_removed_of_op? (heq ▸ hop))
      rw [show (s.stage i).Begins id ↔ op.starts? = some id from
        ⟨fun ⟨op', hop', hs⟩ => by rw [hop] at hop'; cases hop'; exact hs, fun hs => ⟨op, hop, hs⟩⟩]
      exact Runner.isSome_entry?_perform h.tied about keeps

theorem Forgotten.later {late : ι → Prop} (h : s.Forgotten id late) (hl : Later s s') : s'.Forgotten id late := by
  induction hl with
  | refl => exact h
  | tail _ ht ih => exact ih.turn ht

/-! ## Runs out of reach -/

/-- No request calls the table of runs about a timer that is missing, now or later. -/
structure Adrift (id : TimerId) (s : Traffic ι) : Prop extends Missing id s where
  clear : ∀ i op, (s.stage i).op? = some op → op.about? ≠ some id

theorem Adrift.turn (h : s.Adrift id) (ht : Turn s s') : s'.Adrift id := by
  cases ht with
  | beside hg => exact ⟨h.toMissing.turn (.beside hg), h.clear⟩
  | scope i now =>
    refine ⟨h.toMissing.turn (.scope i now), fun j op hop => ?_⟩
    by_cases hji : j = i
    · subst hji; exact h.about_scope hop
    · rw [stage_scope_of_ne s now hji] at hop
      exact h.clear j op hop

theorem Adrift.later (h : s.Adrift id) (hl : Later s s') : s'.Adrift id := by
  induction hl with
  | refl => exact h
  | tail _ ht ih => exact ih.turn ht

/-- What is held of the timer is not touched by any request. -/
theorem Adrift.untouched (h : s.Adrift id) (i : ι) (now : Instant) :
    (s.scope i now).app.runner.entry? id = s.app.runner.entry? id ∧
      ∀ run x, s.app.runner.run? run = some x → x.timer = id → (s.scope i now).app.runner.run? run = some x := by
  rw [runner_scope]
  rcases hop : (s.stage i).op? with _ | op
  · exact ⟨rfl, fun _ _ hx _ => hx⟩
  · obtain ⟨id', about⟩ := Stage.about_of_op? hop
    have other : id' ≠ id := by rintro rfl; exact h.clear i op hop about
    have spares : Runner.SparesAll id' s.app.runner (s.app.runner.perform now op) :=
      Runner.spares_perform h.tied about
    exact ⟨spares.entries id (Ne.symm other), fun run x hx hid => spares.runs run x hx (by rw [hid]; exact Ne.symm other)⟩

/-- Requests in any number and in any order of their scopes, one of which deletes a timer. When they have all
returned, then there is an entry for the timer that was deleted exactly if, at the instant at which it was forgotten,
another request had a copy of it that it was about to start or restart; if there is a run of the timer that was not
aborted, then there was such a request. What is held of the timer is out of reach from then on: no scope of a
request touches its entry or its runs. -/
theorem orphans_of_delete {a : App} (tied : a.runner.Tied) (fresh : a.ids.Fresh (App.namesIn a.timers))
    {commands : ι → Command} (before : Later (initial a commands) s) (deleting : s.stage i = .removed id)
    (after : Later (s.scope i now) s') (settled : ∀ j, (s'.stage j).isSettled = true) :
    ((s'.app.runner.entry? id).isSome = true ↔ ∃ j, (s.stage j).Begins id) ∧
    (∀ run x, s'.app.runner.run? run = some x → x.timer = id → x.signals.aborted = false →
      ∃ j, (s.stage j).Begins id) ∧
    ∀ s'', Later s' s'' → ∀ j now, (s''.scope j now).app.runner.entry? id = s''.app.runner.entry? id ∧
      ∀ run x, s''.app.runner.run? run = some x → x.timer = id → (s''.scope j now).app.runner.run? run = some x := by
  have sound : s.Sound := (sound_initial tied fresh commands).later before
  have forgotten := (sound.forgotten_scope deleting now).later after
  have none (j : ι) : (s'.stage j).op? = none := Stage.op?_of_isSettled (settled j)
  have entry : (s'.app.runner.entry? id).isSome = true ↔ ∃ j, (s.stage j).Begins id := by
    rw [forgotten.entry]
    refine exists_congr fun j => and_iff_left ?_
    rintro ⟨op, hop, -⟩
    rw [none j] at hop; cases hop
  refine ⟨entry, fun run x hx hid live => entry.1 ?_, fun s'' later j now => ?_⟩
  · obtain rfl := s'.app.runner.id_of_run? hx
    obtain ⟨e, he, -⟩ := forgotten.tied.entry_of_live hx live
    rw [← hid, he]; rfl
  · have adrift : s'.Adrift id := ⟨forgotten.toMissing, fun j op hop => by rw [none j] at hop; cases hop⟩
    exact (adrift.later later).untouched j now

/-- A kettle, to be started, deleted and stopped. -/
def kettle : Traffic (Fin 3) :=
  initial
    { ids := StepTree.dollars 6
      timers := [{ id := "kettle", name := "Kettle", steps := [.leaf "boil" (.wait (.ofNat 3) .minutes)] }]
      runner := { equipment := ⟨fun _ _ => .endless, .off, "bell", fun t => ⟨t.millis⟩⟩ } }
    fun
    | 0 => .start "kettle"
    | 1 => .delete "kettle"
    | 2 => .stop "kettle"

/-- The kettle is deleted, and was copied before. -/
def kettleDeleted : Traffic (Fin 3) := (kettle.scope 0 ⟨0⟩).scope 1 ⟨0⟩

/-- The copy is used when the kettle has been forgotten. -/
def kettleBoils : Traffic (Fin 3) :=
  ((((kettleDeleted.scope 1 ⟨0⟩).scope 0 ⟨0⟩).scope 0 ⟨0⟩).scope 1 ⟨0⟩)

/-- Both requests have returned with success, the kettle is gone and boils; and a request to stop it finds nothing. -/
theorem orphans_of_delete_kettle :
    kettleBoils.app.timers = [] ∧ (kettleBoils.app.runner.entry? "kettle").isSome = true ∧
      (∃ x, kettleBoils.app.runner.run? 1 = some x ∧ x.timer = "kettle" ∧ x.signals.aborted = false) ∧
      (kettleBoils.scope 2 ⟨1⟩).stage 2 = .returned (.error (.timerNotFound "kettle")) ∧
      (kettleBoils.scope 2 ⟨1⟩).app.runner.entry? "kettle" = kettleBoils.app.runner.entry? "kettle" := by
  have reached : World.Reached (fun _ => True) (World.initial kettle.app.runner.equipment ⟨0⟩) := ⟨_, _, .refl⟩
  have fresh : kettle.app.ids.Fresh (App.namesIn kettle.app.timers) := StepTree.dollars_fresh (by decide +kernel)
  have before : Later kettle kettleDeleted := .tail (.single (.scope 0 ⟨0⟩)) (.scope 1 ⟨0⟩)
  have after : Later (kettleDeleted.scope 1 ⟨0⟩) kettleBoils :=
    .tail (.tail (.single (.scope 0 ⟨0⟩)) (.scope 0 ⟨0⟩)) (.scope 1 ⟨0⟩)
  have deleting : kettleDeleted.stage 1 = .removed "kettle" := rfl
  obtain ⟨entry, -, apart⟩ := orphans_of_delete reached.tied fresh before deleting after (by decide)
  refine ⟨rfl, entry.2 ⟨0, _, rfl, rfl⟩, ⟨_, rfl, rfl, rfl⟩, rfl, (apart _ .refl 2 ⟨1⟩).1⟩

end Traffic

end StepTimer
