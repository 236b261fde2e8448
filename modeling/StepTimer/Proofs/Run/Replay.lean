/-
Sounds that a pause has cut. Whether the sound of a step is to be played again is not decided by the pause, but by
the next move of its run, the one that sees how the call has ended (`Looks`): if the run is paused at that moment
the step owes the sound, and it does not come to its end before the sound was started again (`Owes`); if the run
was resumed before it looked, the step is over.
-/
import StepTimer.Proofs.Engine.Heard
import StepTimer.Proofs.Run.Paused

namespace StepTimer

namespace Runner

/-- The run is at a depth in a sound step, outside of the rounds of alerts. -/
def InSound (r : Runner) (run : RunId) (n : Nat) (url : String) (phase : SoundPhase) : Prop :=
  ∃ x, r.run? run = some x ∧ x.activity.inner n = some (.sound url true phase) ∧ x.activity.isInRound n = false

/-- The sound of the step was cut, and the run has not made a move since then. -/
structure Muted (r : Runner) (run : RunId) (n : Nat) (url : String) (call : Call) : Prop where
  inSound : r.InSound run n url (.playing call)
  isCut : r.devices.channel.isCut call.number = true

/-- The step is to start its sound. -/
def Owes (r : Runner) (run : RunId) (n : Nat) (url : String) : Prop :=
  ∃ phase, r.InSound run n url phase ∧ ∀ call, phase ≠ .playing call

/-- The step is over, and no step after it has become active. -/
def HasEnded (r : Runner) (run : RunId) (n : Nat) : Prop := ∃ x, r.run? run = some x ∧ x.activity.inner n = some .done

/-- The run is paused and was not aborted. -/
def IsHeld (r : Runner) (run : RunId) : Prop :=
  ∃ x, r.run? run = some x ∧ x.signals.paused = true ∧ x.signals.aborted = false

variable {r r' : Runner} {now : Instant} {run run' : RunId} {n : Nat} {url : String} {phase : SoundPhase} {call : Call}
  {coin : Bool} {events : List Event}

/-! ## What leaves a sound step as it is -/

theorem InSound.perform (h : r.InSound run n url phase) (ht : r.Tied) (now : Instant) (op : Op) :
    (r.perform now op).InSound run n url phase := by
  obtain ⟨x, hx, hin, hround⟩ := h
  rcases kin_perform now run ht.unused op with ⟨f, hf, hsame⟩ | ⟨t, -, -, hnew, -⟩
  · refine ⟨f x, by rw [hsame, hx]; rfl, ?_, ?_⟩ <;> rw [(hf x).activity] <;> assumption
  · rw [hnew, ht.unused] at hx
    cases hx

theorem InSound.wake (h : r.InSound run n url phase) (run' : RunId) : (r.wake run').InSound run n url phase := by
  obtain ⟨x, hx, hin, hround⟩ := h
  unfold InSound
  rw [run?_wake]
  split
  · rename_i heq
    subst heq
    exact ⟨_, by rw [hx]; rfl, Activity.inner_wake hin, (Activity.isInRound_wake hin).trans hround⟩
  · exact ⟨x, hx, hin, hround⟩

theorem InSound.advance_ne (h : r.InSound run n url phase) (ha : r.advance run' coin now = some (r', events))
    (hne : run ≠ run') : r'.InSound run n url phase := by
  obtain ⟨x, hx, hin, hround⟩ := h
  exact ⟨x, (run?_advance_ne r now run' ha hne).trans hx, hin, hround⟩

/-- A move of the run is a move of the sound. -/
theorem InSound.advance_self (h : r.InSound run n url phase) (ha : r.advance run coin now = some (r', events)) :
    ∃ x m, r.run? run = some x ∧
      Activity.advanceSound url true (r.circumstances x now coin) r.devices phase = some m ∧ events = m.events ∧
      r'.devices = m.devices ∧
      ∃ x', r'.run? run = some x' ∧ x'.activity.inner n = some m.next ∧ x'.activity.isInRound n = false := by
  obtain ⟨x, hx, hin, hround⟩ := h
  obtain ⟨x', hx', ⟨hd, -⟩ | ⟨m, hm, hnext, hdev, hev⟩⟩ := run?_advance_self ha
  · cases hx.symm.trans hx'
    rw [Activity.not_isDone_of_inner hin rfl] at hd
    cases hd
  · cases hx.symm.trans hx'
    obtain ⟨mb, hmb, hinner, hround', hd, he⟩ := Activity.advance_outside hin rfl hround hm
    exact ⟨x, mb, hx, hmb, hev.trans he, hdev.trans hd, _, hnext, hinner, hround'⟩

/-- When the run does not go on, neither does the sound. -/
theorem InSound.rests (h : r.InSound run n url phase) (hn : r.advance run coin now = none) :
    ∃ x, r.run? run = some x ∧ Activity.advanceSound url true (r.circumstances x now coin) r.devices phase = none := by
  obtain ⟨x, hx, hin, -⟩ := h
  rw [advance_eq_map r now hx (Activity.not_isDone_of_inner hin rfl), Option.map_eq_none_iff] at hn
  exact ⟨x, hx, Activity.advance_inner_eq_none hin hn⟩

/-! ## Sounds that were cut -/

theorem Muted.perform (h : r.Muted run n url call) (ht : r.Tied) (now : Instant) (op : Op) :
    (r.perform now op).Muted run n url call :=
  ⟨h.inSound.perform ht now op, (cuts_perform r now op).isCut _ h.isCut⟩

theorem isCut_advance {k : Nat} (h : r.devices.channel.isCut k = true)
    (ha : r.advance run coin now = some (r', events)) : r'.devices.channel.isCut k = true := by
  obtain ⟨x, hx, -⟩ := advance_cases r now ha
  rcases channel_advance ha hx with hsame | ⟨m, -, hmove⟩
  · rw [hsame]; exact h
  · exact hmove.isCut h

/-- The move that sees how the call has ended decides on what the step owes. -/
theorem Muted.advance_self (h : r.Muted run n url call) (ha : r.advance run coin now = some (r', events)) :
    ∃ how, call.end? coin r.devices.channel now = some how ∧ events = [Activity.endEvent call.url how] ∧
      ((how = .interrupted ∧ r.IsHeld run ∧ r'.Owes run n url) ∨
        (¬ (how = .interrupted ∧ r.IsHeld run) ∧ r'.HasEnded run n)) := by
  obtain ⟨x, m, hx, hm, rfl, -, x', hx', hin, hround⟩ := h.inSound.advance_self ha
  obtain ⟨how, hhow, rfl⟩ := Option.map_eq_some_iff.1 hm
  have hheld : r.IsHeld run ↔ x.signals.paused = true ∧ x.signals.aborted = false := by
    constructor
    · rintro ⟨y, hy, hsignals⟩
      cases hx.symm.trans hy
      exact hsignals
    · exact fun hsignals => ⟨x, hx, hsignals⟩
  refine ⟨how, hhow, rfl, ?_⟩
  by_cases hagain : how = .interrupted ∧ r.IsHeld run
  · refine Or.inl ⟨hagain.1, hagain.2, .check, ⟨x', hx', ?_, hround⟩, nofun⟩
    obtain ⟨hp, hlive⟩ := hheld.1 hagain.2
    rw [hin]
    simp [circumstances, hagain.1, hp, hlive]
  · refine Or.inr ⟨hagain, x', hx', ?_⟩
    have hno : (true && decide (how = .interrupted) && x.signals.paused && !x.signals.aborted) = false := by
      refine Bool.eq_false_iff.2 fun hyes => hagain ?_
      simp only [Bool.true_and, Bool.and_eq_true, decide_eq_true_eq, Bool.not_eq_true'] at hyes
      exact ⟨hyes.1.1, hheld.2 ⟨hyes.1.2, hyes.2⟩⟩
    rw [hin]
    simp only [circumstances, hno, Bool.false_eq_true, if_false]

/-- A run whose sound was cut does not wait for the clock. -/
theorem Muted.advance_ne_none (h : r.Muted run n url call) (now : Instant) (coin : Bool) :
    r.advance run coin now ≠ none := by
  intro hn
  obtain ⟨x, -, hrest⟩ := h.inSound.rests hn
  have hend : call.end? coin r.devices.channel now = none := Option.map_eq_none_iff.1 hrest
  unfold Call.end? at hend
  rw [h.isCut] at hend
  cases hover : call.isOver now <;> rw [hover] at hend <;> cases hend

/-! ## Sounds that are owed -/

theorem Owes.perform (h : r.Owes run n url) (ht : r.Tied) (now : Instant) (op : Op) :
    (r.perform now op).Owes run n url := by
  obtain ⟨phase, hin, hne⟩ := h
  exact ⟨phase, hin.perform ht now op, hne⟩

theorem Owes.wake (h : r.Owes run n url) (run' : RunId) : (r.wake run').Owes run n url := by
  obtain ⟨phase, hin, hne⟩ := h
  exact ⟨phase, hin.wake run', hne⟩

/-- The sound is started, from the beginning: it is in the slot, in a call of its own. -/
structure Starts (r : Runner) (run : RunId) (n : Nat) (url : String) (now : Instant) (r' : Runner) (events : List Event) :
    Prop where
  events : events = [.play url]
  call : r'.InSound run n url (.playing (.start r.equipment.player r.devices.channel.nextCall url now))
  slot : r'.devices.channel.current = some ⟨r.devices.channel.nextCall, run, url⟩

/-- A move of the run leaves the sound owed, or starts it, or ends the step of a run that was aborted. -/
theorem Owes.advance_self (h : r.Owes run n url) (ha : r.advance run coin now = some (r', events)) :
    (r'.Owes run n url ∧ events = []) ∨ r.Starts run n url now r' events ∨
      (r'.HasEnded run n ∧ ∃ x, r.run? run = some x ∧ x.signals.aborted = true) := by
  obtain ⟨phase, hsound, hne⟩ := h
  obtain ⟨x, m, hx, hm, rfl, hd, x', hx', hin, hround⟩ := hsound.advance_self ha
  have hid := id_of_run? r hx
  cases phase with
  | check =>
    cases hm
    refine Or.inl ⟨⟨_, ⟨x', hx', hin, hround⟩, fun call hno => ?_⟩, rfl⟩
    split at hno <;> cases hno
  | held =>
    simp only [Activity.advanceSound] at hm
    split at hm <;> cases hm
    exact Or.inl ⟨⟨.begin, ⟨x', hx', hin, hround⟩, fun call hno => by cases hno⟩, rfl⟩
  | begin =>
    simp only [Activity.advanceSound] at hm
    split at hm <;> cases hm
    · rename_i habort
      exact Or.inr (Or.inr ⟨⟨x', hx', hin⟩, x, hx, by simpa [circumstances] using habort⟩)
    · refine Or.inr (Or.inl ⟨rfl, ⟨x', hx', hin, hround⟩, ?_⟩)
      rw [hd, ← hid]
      rfl
  | playing call => exact absurd rfl (hne call)

/-- A run that owes a sound and is not paused does not wait. -/
theorem Owes.advance_ne_none (h : r.Owes run n url) {x : Run} (hx : r.run? run = some x) (hp : x.signals.paused = false)
    (now : Instant) (coin : Bool) : r.advance run coin now ≠ none := by
  obtain ⟨phase, hsound, hne⟩ := h
  intro hn
  obtain ⟨y, hy, hrest⟩ := hsound.rests hn
  cases hx.symm.trans hy
  cases phase with
  | check => cases hrest
  | held => simp [Activity.advanceSound, circumstances, hp] at hrest
  | begin =>
    simp only [Activity.advanceSound] at hrest
    split at hrest <;> cases hrest
  | playing call => exact hne call rfl

/-- Before it waits, it starts the sound. -/
theorem Owes.starts (h : r.Owes run n url) {x : Run} (hx : r.run? run = some x) (hp : x.signals.paused = false)
    (hlive : x.signals.aborted = false) {steps : List Step} (hm : Moves run now r events steps r') :
    ∃ rest, events = .play url :: rest := by
  induction hm generalizing x with
  | rest hrest => exact absurd (hrest true) (h.advance_ne_none hx hp now true)
  | move coin ha _ ih =>
    rcases h.advance_self ha with ⟨howes, rfl⟩ | hstarts | ⟨-, y, hy, habort⟩
    · obtain ⟨y, hy, ⟨-, hgone, -⟩ | ⟨m, -, hnext, -⟩⟩ := run?_advance_self ha
      · obtain ⟨phase, ⟨z, hz, -⟩, -⟩ := howes
        rw [hgone] at hz
        cases hz
      · cases hx.symm.trans hy
        exact ih howes hnext hp hlive
    · rw [hstarts.events]
      exact ⟨_, rfl⟩
    · cases hx.symm.trans hy
      rw [hlive] at habort
      cases habort

/-! ## Pauses -/

/-- A pause that cuts the call of a run has paused that run, and the timer in it. -/
theorem paused_of_cut (hapart : r.Apart) (ht : r.Tied) {t : Timer} {x : Run} (hx : r.run? run = some x)
    (hcall : x.activity.call? = some call) (huncut : r.devices.channel.isCut call.number = false)
    (hcut : (r.pause t now).devices.channel.isCut call.number = true) : (r.pause t now).IsPausedIn t.id run := by
  have hmode : t.mode ≠ .stopwatch := by
    intro hm
    rw [pause, if_pos hm, devices_update, huncut] at hcut
    cases hcut
  -- the call has the slot, and the pause silences none but the run that it pauses
  obtain ⟨url, hslot⟩ := (hapart.holds run x hx call hcall).resolve_left (by rw [huncut]; exact Bool.false_ne_true)
  have hpausable : (r.entry? t.id).bind (·.pausable) = some run := by
    rw [pause, if_neg hmode] at hcut
    cases ho : (r.entry? t.id).bind (·.pausable) with
    | none => simp [ho, silenceAny, huncut] at hcut
    | some run' =>
      refine congrArg some (Classical.byContradiction fun hne => ?_)
      simp [ho, silenceAny, silence, Channel.stopOwnedBy, hslot, Ne.symm hne, huncut] at hcut
  obtain ⟨e, he, hrunning⟩ := Option.bind_eq_some_iff.1 hpausable
  have htoken := RunEntry.token_of_pausable hrunning
  obtain ⟨y, hy, hlive, htimer⟩ := ht.run_of_token (r.token?_of_entry? he htoken)
  refine ⟨⟨e.paused, ?_, ?_, by rw [RunEntry.token_paused]; exact htoken⟩,
    { y with signals := { y.signals with paused := true } }, ?_, htimer, hlive, rfl⟩
  · rw [entry?_pause r now hmode, if_pos rfl, he]
    rfl
  · rw [RunEntry.paused, hrunning]
    rfl
  · rw [run?_pause r now hmode, if_pos hpausable, hy]
    rfl

/-- A resumption lets the run of a paused timer go on. -/
theorem IsPausedIn.resume {id : TimerId} (h : r.IsPausedIn id run) (now : Instant) :
    ∃ x, (r.resume id now).run? run = some x ∧ x.signals.paused = false ∧ x.signals.aborted = false := by
  obtain ⟨e, he, hstatus, htoken⟩ := h.entry
  obtain ⟨x, hx, -, hlive, -⟩ := h.run
  refine ⟨{ x with signals := { x.signals with paused := false } }, ?_, rfl, hlive⟩
  have hresumable : (r.entry? id).bind (·.resumable) = some run := by
    rw [he, Option.bind_some, RunEntry.resumable, if_pos hstatus, htoken]
  rw [run?_resume, if_pos hresumable, hx]
  rfl

end Runner

namespace World

open Runner (Op)

variable {w w' : World} {run : RunId} {n : Nat} {url : String} {call : Call} {ok : Op → Prop}

/-- The move of a run that sees how a call has ended which was cut. -/
structure Looks (w : World) (run : RunId) (n : Nat) (url : String) (call : Call) (how : PlaybackEnd) (w' : World) : Prop where
  muted : w.runner.Muted run n url call
  sees : ∃ coin, call.end? coin w.runner.devices.channel w.now = some how ∧
    w.runner.advance run coin w.now = some (w'.runner, [Activity.endEvent call.url how])
  decides : (how = .interrupted ∧ w.runner.IsHeld run ∧ w'.runner.Owes run n url) ∨
    (¬ (how = .interrupted ∧ w.runner.IsHeld run) ∧ w'.runner.HasEnded run n)

/-- What becomes of a sound that is owed. -/
structure Settles (w : World) (run : RunId) (n : Nat) (url : String) (w' : World) : Prop where
  owes : w.runner.Owes run n url
  move : ∃ coin events, w.runner.advance run coin w.now = some (w'.runner, events) ∧
    (w.runner.Starts run n url w.now w'.runner events ∨
      (w'.runner.HasEnded run n ∧ ∃ x, w.runner.run? run = some x ∧ x.signals.aborted = true))

theorem muted_step (h : w.runner.Muted run n url call) (ht : w.runner.Tied) (hs : Step ok w w') :
    w'.runner.Muted run n url call ∨ ∃ how, w.Looks run n url call how w' := by
  cases hs with
  | call op _ => exact Or.inl (h.perform ht w.now op)
  | move run' coin ha =>
    by_cases hrun : run = run'
    · subst hrun
      obtain ⟨how, hhow, rfl, hdecides⟩ := h.advance_self ha
      exact Or.inr ⟨how, h, ⟨coin, hhow, ha⟩, hdecides⟩
    · exact Or.inl ⟨h.inSound.advance_ne ha hrun, Runner.isCut_advance h.isCut ha⟩
  | wake run' => exact Or.inl ⟨h.inSound.wake run', h.isCut⟩
  | dismiss notices => exact Or.inl ⟨h.inSound, h.isCut⟩
  | pass t _ => exact Or.inl h

theorem owes_step (h : w.runner.Owes run n url) (ht : w.runner.Tied) (hs : Step ok w w') :
    w'.runner.Owes run n url ∨ w.Settles run n url w' := by
  cases hs with
  | call op _ => exact Or.inl (h.perform ht w.now op)
  | move run' coin ha =>
    by_cases hrun : run = run'
    · subst hrun
      rcases h.advance_self ha with ⟨howes, -⟩ | hstarts | hends
      · exact Or.inl howes
      · exact Or.inr ⟨h, coin, _, ha, Or.inl hstarts⟩
      · exact Or.inr ⟨h, coin, _, ha, Or.inr hends⟩
    · obtain ⟨phase, hin, hne⟩ := h
      exact Or.inl ⟨phase, hin.advance_ne ha hrun, hne⟩
  | wake run' => exact Or.inl (h.wake run')
  | dismiss notices => exact Or.inl h
  | pass t _ => exact Or.inl h

/-- A sound that was owed is owed still, or was settled in between. -/
def KeepsWord (ok : Op → Prop) (w : World) (run : RunId) (n : Nat) (url : String) (w' : World) : Prop :=
  w'.runner.Owes run n url ∨ ∃ v v', Later ok w v ∧ v.Settles run n url v' ∧ Later ok v' w'

theorem keepsWord_later (h : w.runner.Owes run n url) (ht : w.runner.Tied) (hl : Later ok w w') :
    KeepsWord ok w run n url w' := by
  induction hl with
  | refl => exact Or.inl h
  | tail hl hs ih =>
    rcases ih with howes | ⟨v, v', hbefore, hsettles, hafter⟩
    · exact (owes_step howes (Later.tied ht hl) hs).imp_right fun hsettles => ⟨_, _, hl, hsettles, .refl⟩
    · exact Or.inr ⟨v, v', hbefore, hsettles, hafter.tail hs⟩

/-- A sound that was cut stays so until the run looks. -/
theorem muted_later (h : w.runner.Muted run n url call) (ht : w.runner.Tied) (hl : Later ok w w') :
    w'.runner.Muted run n url call ∨
      ∃ v v' how, Later ok w v ∧ v.Looks run n url call how v' ∧ v'.runner.Tied ∧ Later ok v' w' := by
  induction hl with
  | refl => exact Or.inl h
  | tail hl hs ih =>
    have htied := Later.tied ht hl
    rcases ih with hmuted | ⟨v, v', how, hbefore, hlooks, htied', hafter⟩
    · exact (muted_step hmuted htied hs).imp_right fun ⟨how, hlooks⟩ => ⟨_, _, how, hl, hlooks, hs.tied htied, .refl⟩
    · exact Or.inr ⟨v, v', how, hbefore, hlooks, htied', hafter.tail hs⟩

/-- A sound that a pause has cut is played again only if its run looks before it is resumed. Let a pause cut the
sound of a step that is not in a round of an alert. Whatever comes then, the sound stays cut until the run makes
its next move, for which it does not wait. If it is paused at that move, and sees the cut, the step owes the
sound: it is in the step until it has started the sound from the beginning, or was aborted. Otherwise the step is
over with that move, which starts no sound. So the sound is started by the next poll after a resumption that
comes when the run has looked, and it is lost by a resumption that comes before. -/
theorem replayed_once_seen (hw : w.Reached (fun _ => True)) {t : Timer} {x : Run} (hx : w.runner.run? run = some x)
    (hsound : x.activity.inner n = some (.sound url true (.playing call))) (hround : x.activity.isInRound n = false)
    (huncut : w.runner.devices.channel.isCut call.number = false)
    (hcut : (w.perform (.pause t)).runner.devices.channel.isCut call.number = true) :
    (w.perform (.pause t)).runner.IsPausedIn t.id run ∧
    ∀ v, Later (fun _ => True) (w.perform (.pause t)) v →
      ((v.runner.Muted run n url call ∧ ∀ coin, v.runner.advance run coin v.now ≠ none) ∨
        ∃ u u' how, Later (fun _ => True) (w.perform (.pause t)) u ∧ u.Looks run n url call how u' ∧
          Later (fun _ => True) u' v ∧ (u'.runner.Owes run n url → KeepsWord (fun _ => True) u' run n url v)) ∧
      (v.runner.IsPausedIn t.id run →
        (v.runner.Muted run n url call → ∀ coin r events,
          (v.perform (.resume t.id)).runner.advance run coin v.now = some (r, events) →
            r.HasEnded run n ∧ ∀ sound, .play sound ∉ events) ∧
        (v.runner.Owes run n url → ∀ events steps r,
          (v.perform (.resume t.id)).runner.Poll run v.now events steps r → ∃ rest, events = .play url :: rest)) := by
  have ht := hw.tied
  have hcall : x.activity.call? = some call := Activity.call?_inner hsound
  have hpaused := Runner.paused_of_cut hw.apart ht hx hcall huncut hcut
  have hmuted : (w.perform (.pause t)).runner.Muted run n url call :=
    ⟨Runner.InSound.perform ⟨x, hx, hsound, hround⟩ ht w.now (.pause t), hcut⟩
  have ht₁ : (w.perform (.pause t)).runner.Tied := ht.perform w.now (.pause t)
  refine ⟨hpaused, fun v hv => ⟨?_, fun hp => ⟨fun hm coin r events ha => ?_, fun howes events steps r hpoll => ?_⟩⟩⟩
  · rcases muted_later hmuted ht₁ hv with hm | ⟨u, u', how, hbefore, hlooks, htied, hafter⟩
    · exact Or.inl ⟨hm, hm.advance_ne_none v.now⟩
    · exact Or.inr ⟨u, u', how, hbefore, hlooks, hafter, fun howes => keepsWord_later howes htied hafter⟩
  · have hm' : (v.perform (.resume t.id)).runner.Muted run n url call := hm.perform (Later.tied ht₁ hv) v.now (.resume t.id)
    obtain ⟨y, hy, hgoing, -⟩ := hp.resume v.now
    obtain ⟨how, -, rfl, ⟨-, ⟨z, hz, hheld, -⟩, -⟩ | ⟨-, hended⟩⟩ := hm'.advance_self ha
    · cases hy.symm.trans hz
      rw [hgoing] at hheld
      cases hheld
    · refine ⟨hended, fun sound hmem => ?_⟩
      cases how <;> cases List.mem_singleton.1 hmem
  · obtain ⟨y, hy, hgoing, hlive⟩ := hp.resume v.now
    have howes' := (howes.perform (Later.tied ht₁ hv) v.now (.resume t.id)).wake run
    have hy' : ((v.perform (.resume t.id)).runner.wake run).run? run = some { y with activity := y.activity.wake } := by
      rw [Runner.run?_wake, if_pos rfl]
      exact congrArg _ hy
    exact howes'.starts hy' hgoing hlive hpoll

/-- A timer that sounds a gong. -/
def gong : Timer := { id := "gong", name := "Gong", steps := [.leaf "strike" (.playSound {})] }

/-- The call that sounds it, for a second. -/
def gongCall : Call := ⟨1, "gong", some ⟨1000000000⟩, false⟩

/-- The gong has sounded for 300 milliseconds. -/
def gongSounding : World :=
  { ((initial ⟨fun _ _ => .lasts 1000, .off, "gong", fun _ => ⟨0⟩⟩ ⟨0⟩).perform (.start gong)).goOn 1 4 with
    now := ⟨300000000⟩ }

/-- A gong that is resumed before its run has looked is lost, and one that is resumed later is struck again. -/
theorem replayed_once_seen_gong :
    (∃ r events, ((gongSounding.perform (.pause gong)).perform (.resume "gong")).runner.advance 1 true gongSounding.now =
      some (r, events) ∧ r.HasEnded 1 1 ∧ ∀ sound, .play sound ∉ events) ∧
    ∀ events steps r, (((gongSounding.perform (.pause gong)).goOn 1 5).perform (.resume "gong")).runner.Poll 1
      gongSounding.now events steps r → ∃ rest, events = .play "gong" :: rest := by
  have hw : gongSounding.Reached (fun _ => True) :=
    ⟨_, _, .tail (.head (.call (.start gong) trivial) (later_goOn 1 4 _)) (.pass ⟨300000000⟩ (Nat.zero_le _))⟩
  obtain ⟨x, hx, hsound, hround⟩ : gongSounding.runner.InSound 1 1 "gong" (.playing gongCall) := ⟨_, rfl, rfl, rfl⟩
  obtain ⟨hpaused, hlater⟩ := replayed_once_seen (t := gong) hw hx hsound hround (by decide) (by decide)
  obtain ⟨⟨r, events⟩, ha⟩ : ∃ p, ((gongSounding.perform (.pause gong)).perform (.resume "gong")).runner.advance 1 true
    gongSounding.now = some p := ⟨_, rfl⟩
  have hmuted : (gongSounding.perform (.pause gong)).runner.Muted 1 1 "gong" gongCall := ⟨⟨_, rfl, rfl, rfl⟩, by decide⟩
  refine ⟨⟨r, events, ha, ((hlater _ .refl).2 hpaused).1 hmuted true r events ha⟩, fun events steps r hpoll => ?_⟩
  have hlooked : ((gongSounding.perform (.pause gong)).goOn 1 5).runner.IsPausedIn "gong" 1 :=
    ⟨⟨_, rfl, rfl, rfl⟩, _, rfl, rfl, rfl, rfl⟩
  have howes : ((gongSounding.perform (.pause gong)).goOn 1 5).runner.Owes 1 1 "gong" := ⟨.held, ⟨_, rfl, rfl, rfl⟩, nofun⟩
  exact ((hlater _ (later_goOn 1 5 _)).2 hlooked).2 howes events steps r hpoll

end World

end StepTimer
