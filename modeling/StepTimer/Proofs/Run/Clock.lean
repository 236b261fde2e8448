/-
The table of runs on the virtual clock. A poll takes a run as far as it can go, and the coins fall as
they like; the clock moves on only when no run can go on, and not past an alarm of any of them.
Between the polls every run is fit: its call to the player has the slot or was cut, and the calls to
the notifier that are awaited have not returned before now.
-/
import StepTimer.Proofs.Run.Kin
import StepTimer.Proofs.Engine.Aborted

namespace StepTimer

namespace Runner

/-- The step that has just become active in a run. -/
def entered? (r : Runner) (run : RunId) : Option Step := (r.run? run).bind (·.activity.entered?)

/-- The moves of a run until it waits, with what is seen of them and the steps that become active. -/
inductive Moves (run : RunId) (now : Instant) : Runner → List Event → List Step → Runner → Prop
  | rest {r : Runner} (h : ∀ coin, r.advance run coin now = none) : Moves run now r [] [] r
  | move {r r₁ r₂ : Runner} {events events' : List Event} {steps : List Step} (coin : Bool)
      (h : r.advance run coin now = some (r₁, events)) (hs : Moves run now r₁ events' steps r₂) :
      Moves run now r (events ++ events') ((r₁.entered? run).toList ++ steps) r₂

/-- A poll of a run: its turn comes, and it goes on until it waits. -/
def Poll (r : Runner) (run : RunId) (now : Instant) (events : List Event) (steps : List Step) (r' : Runner) : Prop :=
  Moves run now (r.wake run) events steps r'

/-- Whether no run can go on. -/
def Idle (r : Runner) (now : Instant) : Prop :=
  ∀ run x, r.run? run = some x → x.activity.hasYielded = false ∧ ∀ coin, r.advance run coin now = none

end Runner

namespace World

open Runner (Op)

/-- One step on the virtual clock. -/
inductive Tick : World → World → Prop
  | call {w : World} (op : Op) : Tick w (w.perform op)
  | poll {w : World} (run : RunId) {events : List Event} {steps : List StepTimer.Step} {r : Runner}
      (h : w.runner.Poll run w.now events steps r) : Tick w { w with runner := r }
  | dismiss {w : World} (notices : List Nat) : Tick w { w with runner := w.runner.dismissed notices }
  | pass {w : World} (t : Instant) (h : w.now.nanos ≤ t.nanos) (hidle : w.runner.Idle w.now)
      (halarms : ∀ run x, w.runner.run? run = some x → ∀ a ∈ x.activity.alarms, t.nanos ≤ a.nanos) :
      Tick w { w with now := t }

/-- A world that comes after another one on the virtual clock. -/
abbrev Ticks : World → World → Prop := Relation.ReflTransGen Tick

/-- A world that an empty table comes to on the virtual clock. -/
def Ticked (w : World) : Prop := ∃ equipment now, Ticks (initial equipment now) w

/-- The moves of a poll are steps of a history. -/
theorem later_moves {ok : Op → Prop} {w : World} {run : RunId} {r r' : Runner} {events : List Event}
    {steps : List StepTimer.Step} (hm : Runner.Moves run w.now r events steps r') :
    Later ok { w with runner := r } { w with runner := r' } := by
  induction hm with
  | rest => exact .refl
  | move coin ha _ ih => exact .head (.move run coin ha) ih

/-- A step on the virtual clock is made of steps of a history. -/
theorem Tick.later {w w' : World} (h : Tick w w') : Later (fun _ => True) w w' := by
  cases h with
  | call op => exact .single (.call op trivial)
  | poll run hp => exact .head (.wake run) (later_moves hp)
  | dismiss notices => exact .single (.dismiss notices)
  | pass t h => exact .single (.pass t h)

/-- So what holds after every history holds on the virtual clock. -/
theorem Ticked.reached {w : World} (h : w.Ticked) : Reached (fun _ => True) w := by
  obtain ⟨equipment, now, h⟩ := h
  refine ⟨equipment, now, ?_⟩
  induction h with
  | refl => exact .refl
  | tail _ hs ih => exact ih.trans hs.later

/-! ### Calls of a kind -/

/-- One step on the virtual clock, where all calls are of a kind. -/
inductive Beat (ok : Op → Prop) : World → World → Prop
  | call {w : World} (op : Op) (h : ok op) : Beat ok w (w.perform op)
  | poll {w : World} (run : RunId) {events : List Event} {steps : List StepTimer.Step} {r : Runner}
      (h : w.runner.Poll run w.now events steps r) : Beat ok w { w with runner := r }
  | dismiss {w : World} (notices : List Nat) : Beat ok w { w with runner := w.runner.dismissed notices }
  | pass {w : World} (t : Instant) (h : w.now.nanos ≤ t.nanos) (hidle : w.runner.Idle w.now)
      (halarms : ∀ run x, w.runner.run? run = some x → ∀ a ∈ x.activity.alarms, t.nanos ≤ a.nanos) :
      Beat ok w { w with now := t }

/-- A world that comes after another one on the virtual clock by calls of a kind. -/
abbrev Beats (ok : Op → Prop) : World → World → Prop := Relation.ReflTransGen (Beat ok)

/-- A world that an empty table comes to on the virtual clock by calls of a kind. -/
def TickedBy (ok : Op → Prop) (w : World) : Prop := ∃ equipment now, Beats ok (initial equipment now) w

variable {ok : Op → Prop} {w w' : World}

theorem Beat.later (h : Beat ok w w') : Later ok w w' := by
  cases h with
  | call op h => exact .single (.call op h)
  | poll run hp => exact .head (.wake run) (later_moves hp)
  | dismiss notices => exact .single (.dismiss notices)
  | pass t h => exact .single (.pass t h)

theorem Beat.tick (h : Beat ok w w') : Tick w w' := by
  cases h with
  | call op => exact .call op
  | poll run hp => exact .poll run hp
  | dismiss notices => exact .dismiss notices
  | pass t h hidle halarms => exact .pass t h hidle halarms

theorem TickedBy.ticked (h : w.TickedBy ok) : w.Ticked := by
  obtain ⟨equipment, now, h⟩ := h
  refine ⟨equipment, now, ?_⟩
  induction h with
  | refl => exact .refl
  | tail _ hs ih => exact ih.tail hs.tick

theorem TickedBy.reached (h : w.TickedBy ok) : Reached ok w := by
  obtain ⟨equipment, now, h⟩ := h
  refine ⟨equipment, now, ?_⟩
  induction h with
  | refl => exact .refl
  | tail _ hs ih => exact ih.trans hs.later

end World

/-! ## Fit runs -/

/-- What holds of a run between its moves. -/
structure Run.Fit (x : Run) (ch : Channel) (now : Instant) : Prop where
  posed : x.activity.isPosed = true
  holds : ∀ call, x.activity.call? = some call → ch.Holds x.id call.number
  due : ∀ v t, x.activity.awaits? = some v → v.phase.due = some t → now.nanos ≤ t.nanos
  grace : ∀ v t, x.activity.awaits? = some v → v.grace = some t →
    now.nanos ≤ t.nanos ∧ t.nanos ≤ (now.plusMillis 2000).nanos

theorem Run.Fit.imp {x x' : Run} {ch ch' : Channel} {now : Instant} (h : x.Fit ch now) (hid : x'.id = x.id)
    (ha : x'.activity = x.activity) (hch : ∀ n, ch.Holds x.id n → ch'.Holds x.id n) : x'.Fit ch' now := by
  refine ⟨by rw [ha]; exact h.posed, fun call hc => ?_, by rw [ha]; exact h.due, by rw [ha]; exact h.grace⟩
  rw [ha] at hc
  rw [hid]
  exact hch call.number (h.holds call hc)

/-- A run that has just begun is fit. -/
theorem Run.fit_ready {x : Run} (steps : List Step) (ch : Channel) (now : Instant) (h : x.activity = .ready steps) :
    x.Fit ch now := by
  refine ⟨by rw [h]; rfl, fun call hc => ?_, fun v t hv => ?_, fun v t hv => ?_⟩
  · rw [h] at hc; cases hc
  · rw [h] at hv; cases hv
  · rw [h] at hv; cases hv

namespace Runner

/-- Every run is fit. -/
def Fit (r : Runner) (now : Instant) : Prop := ∀ run x, r.run? run = some x → x.Fit r.devices.channel now

/-- Every run looks at its signals before it begins a step or plays a sound. -/
def Guarded (r : Runner) : Prop := ∀ run x, r.run? run = some x → x.activity.isGuarded = true

variable {r r' : Runner} {now : Instant}

/-! ## Calls -/

/-- What a call does to the devices: it cuts sounds, or does nothing. -/
structure Cuts (d d' : Devices) : Prop where
  board : d'.board = d.board
  isCut : ∀ n, d.channel.isCut n = true → d'.channel.isCut n = true
  holds : ∀ owner n, d.channel.Holds owner n → d'.channel.Holds owner n
  slot : ∀ p, d'.channel.current = some p → d.channel.current = some p
  numbered : d.channel.Numbered → d'.channel.Numbered

theorem Cuts.refl (d : Devices) : Cuts d d := ⟨rfl, fun _ h => h, fun _ _ h => h, fun _ h => h, fun h => h⟩

theorem Cuts.trans {d d' d'' : Devices} (h : Cuts d d') (h' : Cuts d' d'') : Cuts d d'' :=
  ⟨h'.board.trans h.board, fun n hn => h'.isCut n (h.isCut n hn), fun o n hn => h'.holds o n (h.holds o n hn),
    fun p hp => h.slot p (h'.slot p hp), fun hn => h'.numbered (h.numbered hn)⟩

theorem cuts_hush (d : Devices) : Cuts d { d with channel := d.channel.stop } := by
  refine ⟨rfl, fun _ h => Channel.isCut_stop h, fun _ _ h => h.stop, fun p hp => ?_, fun h => h.stop⟩
  rw [d.channel.current_stop] at hp
  cases hp

theorem cuts_silence (r : Runner) (owner : RunId) : Cuts r.devices (r.silence owner).devices := by
  unfold silence
  rcases r.devices.channel.stopOwnedBy_cases owner with ⟨-, -, -, he⟩ | ⟨-, he⟩ <;> rw [he]
  · exact cuts_hush r.devices
  · exact .refl r.devices

theorem cuts_silenceAny (r : Runner) (run : Option RunId) : Cuts r.devices (r.silenceAny run).devices := by
  cases run with
  | none => exact .refl _
  | some run => exact cuts_silence r run

theorem cuts_stop (r : Runner) (now : Instant) (id : TimerId) : Cuts r.devices (r.stop id now).devices := by
  unfold stop
  have h := cuts_silenceAny ((r.signalAny ((r.entry? id).bind (·.token)) fun s => { s with aborted := true }).update id
    now fun e => e.stopped now) ((r.entry? id).bind (·.token))
  simpa using h

theorem cuts_resume (r : Runner) (now : Instant) (id : TimerId) : Cuts r.devices (r.resume id now).devices := by
  unfold resume
  simpa using Cuts.refl r.devices

theorem cuts_beginRun (r : Runner) (now : Instant) (t : Timer) : Cuts r.devices (r.beginRun t now).devices := by
  have h : (r.beginRun t now).devices = (r.signalAny (r.token? t.id) fun s => { s with aborted := true }).devices := rfl
  rw [h, devices_signalAny]
  exact .refl _

theorem cuts_perform (r : Runner) (now : Instant) (op : Op) : Cuts r.devices (r.perform now op).devices := by
  cases op with
  | start t =>
    show Cuts _ (r.start t now).devices
    rcases r.start_cases now t with ⟨-, he⟩ | ⟨-, he | he | he⟩ <;> rw [he]
    · exact .refl _
    · exact cuts_beginRun r now t
    · exact cuts_resume r now t.id
    · exact .refl _
  | restart t =>
    show Cuts _ (r.restart t now).devices
    rcases r.restart_cases now t with ⟨-, he⟩ | ⟨-, he⟩ <;> rw [he]
    · exact .refl _
    · exact (cuts_stop r now t.id).trans (cuts_beginRun _ now t)
  | resume id => exact cuts_resume r now id
  | pause t =>
    show Cuts _ (r.pause t now).devices
    unfold pause
    split
    · simpa using Cuts.refl r.devices
    · have h := cuts_silenceAny ((r.signalAny ((r.entry? t.id).bind (·.pausable)) fun s =>
        { s with paused := true }).update t.id now RunEntry.paused) ((r.entry? t.id).bind (·.pausable))
      simpa using h
  | stop id => exact cuts_stop r now id
  | reset id =>
    show Cuts _ ((r.stop id now).update id now RunEntry.resetWatch).devices
    rw [devices_update]
    exact cuts_stop r now id
  | mark id name => exact .refl _
  | forget id =>
    show Cuts _ ((r.stop id now).drop id now).devices
    rw [devices_drop]
    exact cuts_stop r now id
  | stopAll =>
    exact stopAll_induction r now (P := fun r' => Cuts r.devices r'.devices) (.refl _)
      (fun r' id h => h.trans (cuts_stop r' now id)) fun r' h => h.trans (cuts_hush r'.devices)

theorem Fit.perform (h : r.Fit now) (ht : r.Tied) (op : Op) : (r.perform now op).Fit now := by
  intro run x' hx'
  rcases kin_perform now run ht.unused op with hk | ⟨t, -, -, -, -, g, hnew⟩
  · rw [hx'] at hk
    obtain ⟨x, hx, hkin⟩ := hk.of_some
    exact (h run x hx).imp hkin.id hkin.activity ((cuts_perform r now op).holds x.id)
  · rw [hnew] at hx'
    cases hx'
    exact Run.fit_ready t.steps _ now rfl

theorem Guarded.perform (h : r.Guarded) (ht : r.Tied) (now : Instant) (op : Op) : (r.perform now op).Guarded := by
  intro run x' hx'
  rcases kin_perform now run ht.unused op with hk | ⟨t, -, -, -, -, g, hnew⟩
  · rw [hx'] at hk
    obtain ⟨x, hx, hkin⟩ := hk.of_some
    rw [hkin.activity]
    exact h run x hx
  · rw [hnew] at hx'
    cases hx'
    rfl

/-! ## Moves -/

theorem channel_advance {run : RunId} {coin : Bool} {events : List Event}
    (ha : r.advance run coin now = some (r', events)) {x : Run} (hx : r.run? run = some x) :
    r'.devices.channel = r.devices.channel ∨ ∃ m,
      x.activity.advance (r.circumstances x now coin) r.devices = some m ∧
      CallMove (r.circumstances x now coin) x.activity.isGuarded x.activity.call? r.devices.channel m.next.call?
        r'.devices.channel := by
  obtain ⟨x', hx', ⟨-, -, hd, -⟩ | ⟨m, hm, -, hd, -⟩⟩ := run?_advance_self ha
  · exact Or.inl (congrArg Devices.channel hd)
  · rw [hx] at hx'; cases hx'
    rw [hd]
    exact Or.inr ⟨m, hm, Activity.advance_call hm⟩

theorem Fit.advance (h : r.Fit now) {run : RunId} {coin : Bool} {events : List Event}
    (ha : r.advance run coin now = some (r', events)) : r'.Fit now := by
  obtain ⟨x, hx, hcase⟩ := run?_advance_self ha
  have hfit := h run x hx
  have hid := id_of_run? r hx
  intro run' y hy
  by_cases hne : run' = run
  · subst hne
    rcases hcase with ⟨-, hgone, -⟩ | ⟨m, hm, hnext, hd, -⟩
    · rw [hgone] at hy; cases hy
    · rw [hnext] at hy; cases hy
      have hmove := Activity.advance_awaits hm
      constructor
      case posed => exact Activity.isPosed_advance hm hfit.posed
      case holds =>
        rw [hd]
        exact (Activity.advance_call hm).holds_self hfit.holds
      case due =>
        intro v t hv ht
        rw [show m.next.awaits? = some v from hv] at hmove
        rcases hmove.of_some with ⟨-, hfresh, -⟩ | ⟨u, -, -, -, hshow⟩
        · exact hfresh.due t ht
        · exact hshow.due t ht
      case grace =>
        intro v t hv ht
        rw [show m.next.awaits? = some v from hv] at hmove
        rcases hmove.of_some with ⟨-, hfresh, -⟩ | ⟨u, hu, -, hgrace, -⟩
        · rw [hfresh.grace t ht]
          exact ⟨now.le_plusMillis 2000, Nat.le_refl _⟩
        · exact hfit.grace u t hu (hgrace ▸ ht)
  · rw [run?_advance_ne r now run ha hne] at hy
    refine (h run' y hy).imp rfl rfl fun n hn => ?_
    rcases channel_advance ha hx with hch | ⟨m, hm, hmove⟩
    · rw [hch]; exact hn
    · refine hmove.holds_other hfit.holds ?_ hn
      show y.id ≠ x.id
      rw [id_of_run? r hy, hid]
      exact hne

theorem Fit.wake (h : r.Fit now) (run : RunId) : (r.wake run).Fit now := by
  intro run' y hy
  obtain ⟨x, hx, rfl | rfl⟩ := run_of_wake r hy
  · exact h run' y hx
  · have hfit := h run' x hx
    refine ⟨Activity.isPosed_wake hfit.posed, fun call hc => ?_, ?_, ?_⟩
    · exact hfit.holds call (x.activity.call?_wake ▸ hc)
    · simpa only [Activity.awaits?_wake] using hfit.due
    · simpa only [Activity.awaits?_wake] using hfit.grace

/-! ## Polls -/

/-- A poll is a number of moves, and then none. -/
theorem Moves.induction {P : Runner → Prop} {run : RunId}
    (hstep : ∀ r r' coin events, P r → r.advance run coin now = some (r', events) → P r')
    {events : List Event} {steps : List Step} (hm : Moves run now r events steps r') (h : P r) : P r' := by
  induction hm with
  | rest => exact h
  | move coin ha _ ih => exact ih (hstep _ _ coin _ h ha)

theorem Moves.rests {run : RunId} {events : List Event} {steps : List Step} (hm : Moves run now r events steps r') :
    ∀ coin, r'.advance run coin now = none := by
  induction hm with
  | rest h => exact h
  | move _ _ _ ih => exact ih

/-- A poll changes no other run. -/
theorem Poll.run?_ne {run run' : RunId} {events : List Event} {steps : List Step}
    (hp : r.Poll run now events steps r') (hne : run' ≠ run) : r'.run? run' = r.run? run' := by
  refine Moves.induction (P := fun r' => r'.run? run' = r.run? run') (fun r₁ r₂ coin events hr ha => ?_) hp ?_
  · rw [run?_advance_ne r₁ now run ha hne, hr]
  · rw [run?_wake, if_neg hne]

/-- After its poll a run cannot go on. -/
theorem Poll.advance_eq_none {run : RunId} {events : List Event} {steps : List Step}
    (hp : r.Poll run now events steps r') {x : Run} (hx : r'.run? run = some x) :
    x.activity.advance (r'.circumstances x now true) r'.devices = none := by
  have hrest := Moves.rests hp true
  cases hd : x.activity.isDone with
  | true => rw [advance_of_isDone r' now hx hd] at hrest; cases hrest
  | false => rwa [advance_eq_map r' now hx hd, Option.map_eq_none_iff] at hrest

/-- A poll leaves the runs of the table guarded: its own since it cannot go on, and it changes no
other. -/
theorem Guarded.poll (h : r.Guarded) (hfit : r'.Fit now) {run : RunId} {events : List Event} {steps : List Step}
    (hp : r.Poll run now events steps r') : r'.Guarded := by
  intro run' y hy
  by_cases hne : run' = run
  · subst hne
    exact Activity.isGuarded_of_advance_eq_none (hp.advance_eq_none hy) (hfit run' y hy).posed
  · rw [hp.run?_ne hne] at hy
    exact h run' y hy

end Runner

/-! ## Histories -/

namespace World

/-- What holds between the polls on the virtual clock. -/
structure Fit (w : World) : Prop where
  tied : w.runner.Tied
  fit : w.runner.Fit w.now
  guarded : w.runner.Guarded

theorem Fit.tick {w w' : World} (h : w.Fit) (ht : Tick w w') : w'.Fit := by
  cases ht with
  | call op => exact ⟨h.tied.perform w.now op, h.fit.perform h.tied op, h.guarded.perform h.tied w.now op⟩
  | poll run hp =>
    obtain ⟨htied, hfit⟩ := Runner.Moves.induction (P := fun r => r.Tied ∧ r.Fit w.now)
      (fun _ _ _ _ hr ha => ⟨hr.1.advance w.now ha, hr.2.advance ha⟩) hp
      ⟨h.tied.modifyActivity run Activity.wake, h.fit.wake run⟩
    exact ⟨htied, hfit, h.guarded.poll hfit hp⟩
  | dismiss => exact ⟨⟨h.tied.held, h.tied.fresh⟩, h.fit, h.guarded⟩
  | pass t hle hidle halarms =>
    -- the awaited returns are alarms, and the clock does not go past them
    refine ⟨h.tied, fun run x hx => ?_, h.guarded⟩
    have hfit := h.fit run x hx
    refine ⟨hfit.posed, hfit.holds, fun v u hv hu => ?_, fun v u hv hu => ⟨?_, ?_⟩⟩
    · exact halarms run x hx u (Activity.mem_alarms_of_awaits hv (Or.inl hu))
    · exact halarms run x hx u (Activity.mem_alarms_of_awaits hv (Or.inr hu))
    · refine Nat.le_trans (hfit.grace v u hv hu).2 ?_
      exact Nat.add_le_add_right hle _

theorem Ticks.fit {w w' : World} (h : w.Fit) (ht : Ticks w w') : w'.Fit := by
  induction ht with
  | refl => exact h
  | tail _ hs ih => exact ih.tick hs

theorem Ticked.fit {w : World} (h : w.Ticked) : w.Fit := by
  obtain ⟨equipment, now, h⟩ := h
  refine Ticks.fit ⟨?_, fun run x hx => ?_, fun run x hx => ?_⟩ h
  · exact Reached.tied (show Reached (fun _ => True) (initial equipment now) from ⟨equipment, now, .refl⟩)
  · cases hx
  · cases hx

/-! ## Polls that compute -/

/-- The world after the turn of a run, with at most so many moves. -/
def turned (run : RunId) (n : Nat) (w : World) : World := { w with runner := w.runner.wake run }.goOn run n

theorem moves_goOn {run : RunId} {n : Nat} {w : World}
    (h : ∀ coin, ((w.goOn run n).runner.advance run coin w.now).isNone = true) :
    ∃ events steps, Runner.Moves run w.now w.runner events steps (w.goOn run n).runner := by
  induction n generalizing w with
  | zero => exact ⟨[], [], .rest fun coin => Option.isNone_iff_eq_none.1 (h coin)⟩
  | succ n ih =>
    cases hm : w.runner.advance run true w.now with
    | none =>
      have hsame : w.goOn run (n + 1) = w := by rw [goOn, hm, Option.elim_none]
      rw [hsame] at h ⊢
      exact ⟨[], [], .rest fun coin => Option.isNone_iff_eq_none.1 (h coin)⟩
    | some p =>
      have hnext : w.goOn run (n + 1) = { w with runner := p.1 }.goOn run n := by rw [goOn, hm, Option.elim_some]
      rw [hnext] at h ⊢
      obtain ⟨events, steps, hs⟩ := ih (w := { w with runner := p.1 }) h
      exact ⟨_, _, .move true hm hs⟩

theorem now_goOn (run : RunId) (n : Nat) (w : World) : (w.goOn run n).now = w.now ∧ (w.goOn run n).begun = w.begun := by
  induction n generalizing w with
  | zero => exact ⟨rfl, rfl⟩
  | succ n ih =>
    unfold goOn
    cases w.runner.advance run true w.now with
    | none => exact ⟨rfl, rfl⟩
    | some p => exact ih _

/-- A turn after which the run waits is a poll. -/
theorem poll_turned {run : RunId} {n : Nat} {w : World}
    (h : ∀ coin, ((w.turned run n).runner.advance run coin w.now).isNone = true) :
    (∃ events steps, w.runner.Poll run w.now events steps (w.turned run n).runner) ∧
      w.turned run n = { w with runner := (w.turned run n).runner } := by
  obtain ⟨hnow, hbegun⟩ := now_goOn run n { w with runner := w.runner.wake run }
  refine ⟨moves_goOn (w := { w with runner := w.runner.wake run }) h, ?_⟩
  unfold turned
  generalize World.goOn run n _ = w' at hnow hbegun ⊢
  cases w'
  cases hnow
  cases hbegun
  rfl

theorem tick_turned {run : RunId} {n : Nat} {w : World}
    (h : ∀ coin, ((w.turned run n).runner.advance run coin w.now).isNone = true) : Tick w (w.turned run n) := by
  obtain ⟨⟨events, steps, hs⟩, hw⟩ := poll_turned h
  rw [hw]
  exact .poll run hs

theorem beat_turned {ok : Runner.Op → Prop} {run : RunId} {n : Nat} {w : World}
    (h : ∀ coin, ((w.turned run n).runner.advance run coin w.now).isNone = true) : Beat ok w (w.turned run n) := by
  obtain ⟨⟨events, steps, hs⟩, hw⟩ := poll_turned h
  rw [hw]
  exact .poll run hs

/-- The world after some milliseconds. -/
def passed (ms : Nat) (w : World) : World := { w with now := w.now.plusMillis ms }

/-- Time may pass while all runs wait, until the first alarm. -/
theorem beat_passed {ok : Runner.Op → Prop} {ms : Nat} {w : World}
    (hidle : ∀ x ∈ w.runner.runs, x.activity.hasYielded = false ∧
      ∀ coin, (w.runner.advance x.id coin w.now).isNone = true)
    (halarms : ∀ x ∈ w.runner.runs, ∀ a ∈ x.activity.alarms, (w.now.plusMillis ms).nanos ≤ a.nanos) :
    Beat ok w (w.passed ms) := by
  refine .pass _ (w.now.le_plusMillis ms) (fun run x hx => ?_) fun run x hx => ?_
  · obtain ⟨hyielded, hrest⟩ := hidle x (List.mem_of_find?_eq_some hx)
    rw [← Runner.id_of_run? _ hx]
    exact ⟨hyielded, fun coin => Option.isNone_iff_eq_none.1 (hrest coin)⟩
  · exact halarms x (List.mem_of_find?_eq_some hx)

end World

end StepTimer
