/-
Whose sound is in the slot. A call that is given up leaves the slot as it is, and only what is around
it silences it. The invariant is that nothing is left behind: the run that owns the sound in the slot
is in the table, and in that very call. It is kept by every move and every call, and also when runs are
told to hold or to end and sounds are stopped past the table, with its entries left as they are.
-/
import StepTimer.Proofs.Run.Clock
import StepTimer.Proofs.Engine.Depth

namespace StepTimer

theorem Activity.call?_of_entered {a : Activity} (h : a.entered?.isSome) : a.call? = none := by
  induction a with
  | within current rest ih => exact ih h
  | alertRound r t current ih => exact ih h
  | loopPass count children passes current ih => exact ih h
  | entering s => rfl
  | _ => cases h

namespace Runner

/-- The run is in the call of a number. -/
def IsIn (r : Runner) (run : RunId) (number : Nat) : Prop :=
  ∃ x call, r.run? run = some x ∧ x.activity.call? = some call ∧ call.number = number

/-- Whether a sound of the run is in the slot of the channel. -/
def Sounds (r : Runner) (run : RunId) : Prop := ∃ p, r.devices.channel.current = some p ∧ p.owner = run

/-- What is in the slot is the call that its owner is in. -/
structure Owned (r : Runner) : Prop where
  fresh : ∀ run, r.nextRun ≤ run → r.run? run = none
  slot : ∀ p, r.devices.channel.current = some p → r.IsIn p.owner p.call

variable {r r' : Runner} {now : Instant}

/-! ## What leaves the calls as they are -/

theorem Owned.unused (h : r.Owned) : r.run? r.nextRun = none := h.fresh _ (Nat.le_refl _)

/-- No sound is added, and the runs in the table stay in their calls. -/
theorem Owned.of_cuts (h : r.Owned) (hfresh : ∀ run, r'.nextRun ≤ run → r'.run? run = none)
    (hcuts : Cuts r.devices r'.devices)
    (hruns : ∀ run x, r.run? run = some x → ∃ x', r'.run? run = some x' ∧ x'.activity.call? = x.activity.call?) :
    r'.Owned := by
  refine ⟨hfresh, fun p hp => ?_⟩
  obtain ⟨x, call, hx, hcall, hnum⟩ := h.slot p (hcuts.slot p hp)
  obtain ⟨x', hx', hsame⟩ := hruns p.owner x hx
  exact ⟨x', call, hx', hsame.trans hcall, hnum⟩

theorem Owned.perform (h : r.Owned) (now : Instant) (op : Op) : (r.perform now op).Owned := by
  refine h.of_cuts (fun run hrun => ?_) (cuts_perform r now op) fun run x hx => ?_
  · rcases kin_perform now run h.unused op with ⟨f, -, hf⟩ | ⟨t, -, -, hnew⟩
    · rw [hf, h.fresh run (Nat.le_trans (nextRun_le_perform r now op) hrun)]
      rfl
    · rw [hnew.1, hnew.2.1] at hrun
      exact absurd hrun (Nat.not_succ_le_self _)
  · rcases kin_perform now run h.unused op with ⟨f, hkin, hf⟩ | ⟨t, -, -, hnew⟩
    · exact ⟨f x, by rw [hf, hx]; rfl, congrArg Activity.call? (hkin x).activity⟩
    · rw [hnew.1, h.unused] at hx
      cases hx

theorem Owned.wake (h : r.Owned) (run : RunId) : (r.wake run).Owned := by
  refine h.of_cuts (fun run' hrun => ?_) (.refl _) fun run' x hx => ?_
  · rw [run?_wake]
    split
    · rename_i heq
      rw [← heq, h.fresh run' hrun]
      rfl
    · exact h.fresh run' hrun
  · rw [run?_wake]
    split
    · rename_i heq
      exact ⟨_, by rw [← heq, hx]; rfl, x.activity.call?_wake⟩
    · exact ⟨x, hx, rfl⟩

theorem Owned.signal (h : r.Owned) (run : RunId) (f : Signals → Signals) : (r.signal run f).Owned := by
  have hrun (run' : RunId) := run?_signalAny r (some run) f run'
  refine h.of_cuts (fun run' hfresh => ?_) (.refl _) fun run' x hx => ?_
  · refine (hrun run').trans ?_
    rw [h.fresh run' hfresh]
    exact ite_self none
  · by_cases heq : some run = some run'
    · refine ⟨{ x with signals := f x.signals }, (hrun run').trans ?_, rfl⟩
      rw [if_pos heq, hx]
      rfl
    · exact ⟨x, (hrun run').trans ((if_neg heq).trans hx), rfl⟩

theorem Owned.quieter (h : r.Owned) {d : Devices} (hcuts : Cuts r.devices d) : Owned { r with devices := d } :=
  h.of_cuts h.fresh hcuts fun _ x hx => ⟨x, hx, rfl⟩

/-! ## Moves -/

/-- A run that makes a move has in the slot what it is in, and nothing when it leaves the table. -/
theorem Owned.advance (h : r.Owned) {run : RunId} {coin : Bool} {events : List Event}
    (ha : r.advance run coin now = some (r', events)) : r'.Owned := by
  obtain ⟨x, hx, hcase⟩ := run?_advance_self ha
  have hid := id_of_run? r hx
  have hother (run' : RunId) (hne : run' ≠ run) : r'.run? run' = r.run? run' := run?_advance_ne r now run ha hne
  refine ⟨fun run' hrun => ?_, fun p hp => ?_⟩
  · rw [nextRun_advance r now run ha] at hrun
    have hne : run' ≠ run := by
      rintro rfl
      rw [h.fresh run' hrun] at hx
      cases hx
    rw [hother run' hne, h.fresh run' hrun]
  · rcases hcase with ⟨hdone, -, hd, -⟩ | ⟨m, hm, hnext, hd, -⟩ <;> rw [hd] at hp
    · obtain ⟨y, call, hy, hcall, hnum⟩ := h.slot p hp
      have hne : p.owner ≠ run := by
        -- a run that has come to its end is in no call
        rintro heq
        rw [heq, hx] at hy
        cases hy
        rw [Activity.call?_of_isDone hdone] at hcall
        cases hcall
      exact ⟨y, call, (hother _ hne).trans hy, hcall, hnum⟩
    · have hmove := Activity.advance_call hm
      by_cases ho : p.owner = run
      · obtain ⟨call, hcall, hnum⟩ := hmove.slot_self (fun q hq hqo => by
          obtain ⟨y, call, hy, hcall, hnum⟩ := h.slot q hq
          rw [hqo.trans hid, hx] at hy
          cases hy
          exact ⟨call, hcall, hnum⟩) p hp (ho.trans hid.symm)
        exact ⟨_, call, by rw [ho, hnext], hcall, hnum⟩
      · obtain ⟨y, call, hy, hcall, hnum⟩ := h.slot p (hmove.slot_other hp fun heq => ho (heq.trans hid))
        exact ⟨y, call, (hother _ ho).trans hy, hcall, hnum⟩

end Runner

/-! ## Histories -/

namespace World

/-- One step of a history in which runs are told to hold or to end, and sounds are stopped, also past
the table. -/
inductive RoughStep : World → World → Prop
  | step {w w' : World} (h : Step (fun _ => True) w w') : RoughStep w w'
  | signal {w : World} (run : RunId) (f : Signals → Signals) : RoughStep w { w with runner := w.runner.signal run f }
  | silence {w : World} (owner : RunId) : RoughStep w { w with runner := w.runner.silence owner }
  | hush {w : World} : RoughStep w { w with runner :=
      { w.runner with devices := { w.runner.devices with channel := w.runner.devices.channel.stop } } }

/-- A world that such a history leads to from an empty table. -/
def RoughlyReached (w : World) : Prop :=
  ∃ equipment now, Relation.ReflTransGen RoughStep (initial equipment now) w

theorem RoughStep.owned {w w' : World} (h : w.runner.Owned) (hs : RoughStep w w') : w'.runner.Owned := by
  cases hs with
  | step hs =>
    cases hs with
    | call op _ => exact h.perform w.now op
    | move run coin ha => exact h.advance ha
    | wake run => exact h.wake run
    | dismiss => exact ⟨h.fresh, h.slot⟩
    | pass t _ => exact h
  | signal run f => exact h.signal run f
  | silence owner => exact h.quieter (Runner.cuts_silence _ owner)
  | hush => exact h.quieter (Runner.cuts_hush _)

theorem RoughlyReached.owned {w : World} (h : RoughlyReached w) : w.runner.Owned := by
  obtain ⟨equipment, now, h⟩ := h
  induction h with
  | refl => exact ⟨fun _ _ => rfl, fun _ hp => by cases hp⟩
  | tail _ hs ih => exact hs.owned ih

/-- No sound is left behind. Whatever runs are told and whoever stops sounds, at any moment between two
moves: when a step has just become active in a run, and when something that the run is in at any depth
has come to its end, no sound of the run is in the slot; nor is one when the run has left the table. And
the sound in the slot is always the call that its owner is in, so one that was given up is not there. -/
theorem no_leaked_sound {w : World} (hw : RoughlyReached w) :
    (∀ run x, w.runner.run? run = some x →
      x.activity.entered?.isSome ∨ (∃ n, x.activity.inner n = some .done) → ¬ w.runner.Sounds run) ∧
    (∀ run, w.runner.run? run = none → ¬ w.runner.Sounds run) ∧
    ∀ p, w.runner.devices.channel.current = some p → w.runner.IsIn p.owner p.call := by
  have howned := hw.owned
  refine ⟨fun run x hx hor => ?_, fun run hnone => ?_, howned.slot⟩
  · rintro ⟨p, hp, rfl⟩
    obtain ⟨y, call, hy, hcall, -⟩ := howned.slot p hp
    rw [hx] at hy
    cases hy
    have hno : x.activity.call? = none := by
      rcases hor with hentered | ⟨n, hn⟩
      · exact Activity.call?_of_entered hentered
      · exact Activity.call?_inner hn
    rw [hno] at hcall
    cases hcall
  · rintro ⟨p, hp, rfl⟩
    obtain ⟨y, call, hy, -⟩ := howned.slot p hp
    rw [hnone] at hy
    cases hy

theorem Reached.roughly {w : World} (h : Reached (fun _ => True) w) : RoughlyReached w := by
  obtain ⟨equipment, now, h⟩ := h
  exact ⟨equipment, now, h.lift id fun _ _ => .step⟩

/-- A timer that rings for a quarter of a second and then plays a bell. -/
def ringThenBell : Timer :=
  { id := "eggs", name := "Eggs", steps :=
      [.block "ring" (.notifyUntil { title := "Eggs", timeoutMs := some 250 }) [], .leaf "bell" (.playSound {})] }

/-- The timer was started and rings. -/
def ringing : World :=
  ((initial ⟨fun _ _ => .endless, .off, "", fun _ => ⟨0⟩⟩ ⟨0⟩).perform (.start ringThenBell)).goOn 1 6

/-- Its time has run out, and the bell is about to begin. -/
def rungOut : World := ({ ringing with now := ⟨250000000⟩ } : World).goOn 1 5

theorem no_leaked_sound_rungOut :
    ringing.runner.Sounds 1 ∧ (rungOut.runner.entered? 1).isSome ∧ ¬ rungOut.runner.Sounds 1 := by
  have hring : Later (fun _ => True) (initial ⟨fun _ _ => .endless, .off, "", fun _ => ⟨0⟩⟩ ⟨0⟩) ringing :=
    .head (.call (.start ringThenBell) trivial) (later_goOn 1 6 _)
  have hout : Later (fun _ => True) ringing rungOut := .head (.pass ⟨250000000⟩ (Nat.zero_le _)) (later_goOn 1 5 _)
  have hw : RoughlyReached rungOut := Reached.roughly ⟨_, _, hring.trans hout⟩
  have hentered : (rungOut.runner.entered? 1).isSome := by decide +kernel
  obtain ⟨s, hs⟩ := Option.isSome_iff_exists.1 hentered
  obtain ⟨x, hx, hxs⟩ := Option.bind_eq_some_iff.1 hs
  exact ⟨⟨_, rfl, rfl⟩, hentered, (no_leaked_sound hw).1 1 x hx (Or.inl (by rw [hxs]; rfl))⟩

end World

end StepTimer
