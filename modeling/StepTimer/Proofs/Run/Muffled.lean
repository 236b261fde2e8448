/-
The sound of a paused run. A pause silences the call to the player that the run is in, and a run that is
paused makes no other call, so on the virtual clock the call of a paused run was cut, in whatever the run
is. Only a `pause` makes a run a paused one, and it finds every run between two polls, where none is about to
begin a step or a sound.
-/
import StepTimer.Proofs.Engine.Silent
import StepTimer.Proofs.Run.Clock

namespace StepTimer

/-- A run that makes no call to the player in a move, and whose call was cut, is in no other call after it. -/
theorem CallMove.isCut_of_nextCall_eq {c : Circumstances} {guarded : Bool} {k k' : Option Call} {ch ch' : Channel}
    (h : CallMove c guarded k ch k' ch') (hn : ch'.nextCall = ch.nextCall)
    (hk : ∀ call, k = some call → ch.isCut call.number = true) :
    ∀ call, k' = some call → ch'.isCut call.number = true := by
  intro call hcall
  cases h with
  | keeps => exact hk call hcall
  | silences => cases hcall
  | takes => exact absurd hn (Nat.succ_ne_self _)
  | ends call' => cases hcall

/-- What holds of a run between two polls: it is not about to begin anything, and its call was cut if it is
paused. -/
structure Run.Muffled (x : Run) (ch : Channel) : Prop where
  still : x.activity.isStill = true
  cut : x.signals.paused = true → x.signals.aborted = false →
    ∀ call, x.activity.call? = some call → ch.isCut call.number = true

theorem Run.Muffled.woken {x : Run} {ch : Channel} (h : x.Muffled ch) :
    Run.Muffled { x with activity := x.activity.wake } ch :=
  ⟨Activity.isStill_wake h.still, fun hp ha call hc => h.cut hp ha call (x.activity.call?_wake ▸ hc)⟩

namespace Runner

variable {r r' : Runner} {now : Instant} {run : RunId}

/-- Every run is muffled. -/
def Muffled (r : Runner) : Prop := ∀ run x, r.run? run = some x → x.Muffled r.devices.channel

/-! ## Calls -/

/-- A change after which no run is paused that was not paused before. -/
def Eases (r r' : Runner) : Prop :=
  ∀ run x', r'.run? run = some x' → x'.signals.paused = true → ∃ x, r.run? run = some x ∧ x.signals.paused = true

theorem Eases.refl (r : Runner) : Eases r r := fun _ x hx hp => ⟨x, hx, hp⟩

theorem Eases.trans {r'' : Runner} (h : Eases r r') (h' : Eases r' r'') : Eases r r'' := by
  intro run x'' hx'' hp
  obtain ⟨x', hx', hp⟩ := h' run x'' hx'' hp
  exact h run x' hx' hp

theorem Eases.of_run?_eq (h : ∀ run, r'.run? run = r.run? run) : Eases r r' :=
  fun run x' hx' hp => ⟨x', (h run).symm.trans hx', hp⟩

/-- A signal other than a pause pauses no run. -/
theorem exists_paused_of_ite {c : Prop} [Decidable c] {f : Signals → Signals}
    (hf : ∀ s, (f s).paused = true → s.paused = true) {o : Option Run} {x' : Run}
    (h : (if c then o.map fun x => { x with signals := f x.signals } else o) = some x')
    (hp : x'.signals.paused = true) : ∃ x, o = some x ∧ x.signals.paused = true := by
  split at h
  · obtain ⟨x, hx, rfl⟩ := Option.map_eq_some_iff.1 h
    exact ⟨x, hx, hf x.signals hp⟩
  · exact ⟨x', h, hp⟩

theorem eases_stop (r : Runner) (now : Instant) (id : TimerId) : Eases r (r.stop id now) := by
  intro run x' hx' hp
  rw [run?_stop] at hx'
  exact exists_paused_of_ite (f := fun s => { s with aborted := true }) (fun _ h => h) hx' hp

theorem eases_resume (r : Runner) (now : Instant) (id : TimerId) : Eases r (r.resume id now) := by
  intro run x' hx' hp
  rw [run?_resume] at hx'
  exact exists_paused_of_ite (f := fun s => { s with paused := false }) (fun _ h => by cases h) hx' hp

theorem eases_beginRun (r : Runner) (now : Instant) (t : Timer) : Eases r (r.beginRun t now) := by
  intro run x' hx' hp
  rw [run?_beginRun] at hx'
  rcases Option.or_eq_some_iff.1 hx' with hx' | ⟨-, hx'⟩
  · exact exists_paused_of_ite (f := fun s => { s with aborted := true }) (fun _ h => h) hx' hp
  · -- a run that has just begun is not paused
    split at hx' <;> cases hx'
    cases hp

/-- A call that is not a pause pauses no run. -/
theorem eases_perform (r : Runner) (now : Instant) {op : Op} (hop : ∀ t, op ≠ .pause t) :
    Eases r (r.perform now op) := by
  cases op with
  | start t =>
    show Eases r (r.start t now)
    rcases r.start_cases now t with ⟨-, he⟩ | ⟨-, he | he | he⟩ <;> rw [he]
    · exact .refl r
    · exact eases_beginRun r now t
    · exact eases_resume r now t.id
    · exact .refl r
  | restart t =>
    show Eases r (r.restart t now)
    rcases r.restart_cases now t with ⟨-, he⟩ | ⟨-, he⟩ <;> rw [he]
    · exact .refl r
    · exact (eases_stop r now t.id).trans (eases_beginRun _ now t)
  | resume id => exact eases_resume r now id
  | pause t => exact absurd rfl (hop t)
  | stop id => exact eases_stop r now id
  | reset id => exact (eases_stop r now id).trans (.of_run?_eq fun run => run?_update _ now id _ run)
  | mark id name => exact .refl r
  | forget id => exact (eases_stop r now id).trans (.of_run?_eq fun run => run?_drop _ now id run)
  | stopAll =>
    exact stopAll_induction r now (P := Eases r) (.refl r) (fun r' id h => h.trans (eases_stop r' now id))
      fun r' h => h.trans (.of_run?_eq fun _ => rfl)

/-- A run is paused after a call if it was so before, or if the call is the pause of its timer. -/
theorem paused_perform {op : Op} {x x' : Run} (hx : r.run? run = some x)
    (hx' : (r.perform now op).run? run = some x') (hp : x'.signals.paused = true) :
    x.signals.paused = true ∨
      ∃ t, op = .pause t ∧ t.mode ≠ .stopwatch ∧ (r.entry? t.id).bind (·.pausable) = some x.id := by
  by_cases hop : ∀ t, op ≠ .pause t
  · obtain ⟨y, hy, hpy⟩ := eases_perform r now hop run x' hx' hp
    rw [hx] at hy; cases hy
    exact .inl hpy
  · obtain ⟨t, rfl⟩ := Classical.not_forall_not.1 hop
    by_cases hm : t.mode = .stopwatch
    · have same : (r.pause t now).run? run = r.run? run := by rw [pause, if_pos hm, run?_update]
      have hx' : (r.pause t now).run? run = some x' := hx'
      rw [same, hx] at hx'; cases hx'
      exact .inl hp
    · have hx' : (r.pause t now).run? run = some x' := hx'
      rw [run?_pause r now hm] at hx'
      split at hx'
      next hpause => exact .inr ⟨t, rfl, hm, by rw [id_of_run? r hx]; exact hpause⟩
      next => rw [hx] at hx'; cases hx'; exact .inl hp

/-- A pause cuts the call of the run that it pauses. -/
theorem isCut_pause {t : Timer} (hm : t.mode ≠ .stopwatch) {x : Run} (hfit : x.Fit r.devices.channel now)
    (hpause : (r.entry? t.id).bind (·.pausable) = some x.id) {call : Call} (hc : x.activity.call? = some call) :
    (r.pause t now).devices.channel.isCut call.number = true := by
  have silenced : (r.pause t now).devices.channel = r.devices.channel.stopOwnedBy x.id := by
    simp [pause, hm, hpause, silenceAny, silence]
  rw [silenced]
  exact (hfit.holds call hc).isCut_stopOwnedBy

theorem Muffled.perform (h : r.Muffled) (hfit : r.Fit now) (ht : r.Tied) (op : Op) : (r.perform now op).Muffled := by
  intro run x' hx'
  rcases kin_perform now run ht.unused op with hk | ⟨t, -, -, -, -, g, hnew⟩
  · rw [hx'] at hk
    obtain ⟨x, hx, hkin⟩ := hk.of_some
    refine ⟨by rw [hkin.activity]; exact (h run x hx).still, fun hp ha call hc => ?_⟩
    rw [hkin.activity] at hc
    rcases paused_perform hx hx' hp with hpx | ⟨t, rfl, hm, hpause⟩
    · -- it was paused before, and no call of the table takes a cut back
      have live : x.signals.aborted = false :=
        Bool.eq_false_iff.2 fun hax => by rw [hkin.aborted hax] at ha; cases ha
      exact (cuts_perform r now op).isCut _ ((h run x hx).cut hpx live call hc)
    · exact isCut_pause hm (hfit run x hx) hpause hc
  · rw [hnew] at hx'
    cases hx'
    exact ⟨rfl, fun hp => by cases hp⟩

/-! ## Moves -/

/-- A run is muffled, or it may be about to begin something and is not paused. -/
def MuffledIfPaused (r : Runner) (run : RunId) : Prop :=
  ∀ x, r.run? run = some x → x.signals.paused = true → x.signals.aborted = false → x.Muffled r.devices.channel

theorem MuffledIfPaused.wake (h : r.MuffledIfPaused run) (run' : RunId) : (r.wake run').MuffledIfPaused run := by
  intro y hy hp ha
  obtain ⟨x, hx, rfl | rfl⟩ := run_of_wake r hy
  · exact h y hx hp ha
  · exact (h x hx hp ha).woken

/-- A run that is muffled while it is paused is so after every move of any run. -/
theorem MuffledIfPaused.advance (h : r.MuffledIfPaused run) {run' : RunId} {coin : Bool} {events : List Event}
    (ha : r.advance run' coin now = some (r', events)) : r'.MuffledIfPaused run := by
  obtain ⟨x, hx, hcase⟩ := run?_advance_self ha
  intro y hy hp hlive
  by_cases hrun : run = run'
  · subst hrun
    rcases hcase with ⟨-, hgone, -⟩ | ⟨m, hm, hnext, hd, -⟩
    · rw [hgone] at hy; cases hy
    · rw [hnext] at hy; cases hy
      have muffled := h x hx hp hlive
      have hushed := Activity.hushed_advance hlive hp muffled.still hm
      rw [hd]
      exact ⟨hushed.still, fun _ _ =>
        (Activity.advance_call hm).isCut_of_nextCall_eq hushed.calls (muffled.cut hp hlive)⟩
  · rw [run?_advance_ne r now run' ha hrun] at hy
    have muffled := h y hy hp hlive
    refine ⟨muffled.still, fun _ _ call hc => ?_⟩
    have cut := muffled.cut hp hlive call hc
    rcases channel_advance ha hx with hch | ⟨m, -, hmove⟩
    · rw [hch]; exact cut
    · exact hmove.isCut cut

/-- A poll leaves the runs of the table muffled: its own is at rest, and it changes no other. -/
theorem Muffled.poll (h : r.Muffled) {events : List Event} {steps : List Step} (hp : r.Poll run now events steps r') :
    r'.Muffled := by
  intro run' y hy
  have ifPaused : r'.MuffledIfPaused run' :=
    Moves.induction (P := fun r => r.MuffledIfPaused run') (fun _ _ _ _ hr ha => hr.advance ha) hp
      (MuffledIfPaused.wake (fun x hx _ _ => h run' x hx) run)
  refine ⟨?_, fun hpaused hlive => (ifPaused y hy hpaused hlive).cut hpaused hlive⟩
  by_cases hrun : run' = run
  · subst hrun
    exact Activity.isStill_of_advance_eq_none (hp.advance_eq_none hy)
  · rw [hp.run?_ne hrun] at hy
    exact (h run' y hy).still

end Runner

namespace World

variable {w w' : World}

theorem muffled_tick (h : w.runner.Muffled) (hfit : w.Fit) (ht : Tick w w') : w'.runner.Muffled := by
  cases ht with
  | call op => exact h.perform hfit.fit hfit.tied op
  | poll run hp => exact h.poll hp
  | dismiss notices => exact h
  | pass t hle hidle halarms => exact h

/-- On the virtual clock every run is muffled. -/
theorem Ticked.muffled (h : w.Ticked) : w.runner.Muffled := by
  obtain ⟨equipment, now, h⟩ := h
  -- that the call of a run is its own (`Fit`) is needed at each pause, and carried along
  suffices both : w.Fit ∧ w.runner.Muffled from both.2
  induction h with
  | refl => exact ⟨Ticked.fit ⟨equipment, now, .refl⟩, fun run x hx => by cases hx⟩
  | tail _ ht ih => exact ⟨ih.1.tick ht, muffled_tick ih.2 ih.1 ht⟩

end World

end StepTimer
