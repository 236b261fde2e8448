/-
What is around an activity in a run. A move of the run is a move of what is at a depth, or of a countdown
beside a round that it is in, or that round is given up. The countdowns around it make only so many moves at
an instant (`besides`), and only a round of an alert can be given up with what is in it.
-/
import StepTimer.Proofs.Engine.Depth
import StepTimer.Proofs.Engine.Stir

namespace StepTimer

namespace Activity

/-- The moves that the countdowns around a depth make at an instant. -/
def besides (k : Scene) : Nat → Activity → Nat
  | 0, _ => 0
  | n + 1, within current _ => current.besides k n
  | n + 1, alertRound r t current => t.stirs k (r.isOff k.toMoment) + current.besides k n
  | n + 1, loopPass _ _ _ current => current.besides k n
  | _ + 1, _ => 0

/-- Whether a round of an alert is around a depth. -/
def isInRound : Nat → Activity → Bool
  | 0, _ => false
  | n + 1, within current _ => current.isInRound n
  | _ + 1, alertRound _ _ _ => true
  | n + 1, loopPass _ _ _ current => current.isInRound n
  | _ + 1, _ => false

variable {c : Circumstances} {d : Devices} {m : Move} {h : Hearing} {n : Nat} {a b : Activity}

/-- What a move of an activity is for what it is in, and for the countdowns around that. -/
inductive NestedMove (c : Circumstances) (d : Devices) (h : Hearing) (n : Nat) (a b : Activity) (m : Move) : Prop
  /-- It moves, and the move is this one. -/
  | moves {mb : Move} (hmb : b.advance c d = some mb) (hnext : m.next.inner n = some mb.next)
      (hd : m.devices = mb.devices) (hround : m.next.isInRound n = a.isInRound n)
      (hbesides : m.next.besides (c.scene m.devices h) n = a.besides (c.scene d h) n) (hevents : m.events = mb.events)
  /-- A countdown around it moves. -/
  | stays (hnext : m.next.inner n = some b) (hd : m.devices = d) (hround : m.next.isInRound n = a.isInRound n)
      (hbesides : m.next.besides (c.scene d h) n < a.besides (c.scene d h) n)
  /-- It is given up with the round that it is in. -/
  | dropped (hnext : m.next.inner n = none) (hround : a.isInRound n = true)

theorem nested_advance (ha : c.signals.aborted = false) (hb : a.inner n = some b) (hnot : b.isDone = false)
    (hm : a.advance c d = some m) : NestedMove c d h n a b m := by
  induction n generalizing a m with
  | zero =>
    cases hb
    exact .moves hm rfl rfl rfl rfl rfl
  | succ n ih =>
    have hgo {current : Activity} (hcur : current.inner n = some b) : current.isDone = false := not_isDone_of_inner hcur hnot
    cases a with
    | within current rest =>
      rcases advance_within hm with ⟨hd, -⟩ | ⟨m', hm', rfl⟩
      · rw [hgo hb] at hd; cases hd
      · cases ih hb hm' with
        | moves hmb hnext hd hround hbesides hevents => exact .moves hmb hnext hd hround hbesides hevents
        | stays hnext hd hround hbesides => exact .stays hnext hd hround hbesides
        | dropped hnext hround => exact .dropped hnext hround
    | loopPass count children passes current =>
      rcases advance_loopPass hm with ⟨hd, -⟩ | ⟨m', hm', rfl⟩
      · rw [hgo hb] at hd; cases hd
      · cases ih hb hm' with
        | moves hmb hnext hd hround hbesides hevents => exact .moves hmb hnext hd hround hbesides hevents
        | stays hnext hd hround hbesides => exact .stays hnext hd hround hbesides
        | dropped hnext hround => exact .dropped hnext hround
    | alertRound r t current =>
      rcases advance_alertRound hm with ⟨hd, -⟩ | ⟨m', hm', rfl⟩ | hm
      · rw [hgo hb] at hd; cases hd
      · have hticks : t.stirs (c.scene m'.devices h) (r.isOff (m'.devices.moment c.now)) =
            t.stirs (c.scene d h) (r.isOff (d.moment c.now)) := by
          simp only [Ticking.stirs, Circumstances.scene_toMoment, moment_advance hm', Circumstances.scene_paused]
        cases ih hb hm' with
        | moves hmb hnext hd _ hbesides hevents =>
          refine .moves hmb hnext hd rfl ?_ hevents
          simp only [besides, Circumstances.scene_toMoment, hticks, hbesides]
        | stays hnext hd _ hbesides => exact .stays hnext hd rfl (Nat.add_lt_add_left hbesides _)
        | dropped hnext _ => exact .dropped hnext rfl
      · obtain ⟨tm, htm, rfl⟩ := Option.map_eq_some_iff.1 hm
        rw [r.isDismissed_eq d c.now] at htm
        have hless := (Ticking.stirs_advance (d := d) (h := h) ha htm).2
        cases tm with
        | ended countdown =>
          refine .dropped ?_ rfl
          obtain ⟨report, -, ⟨t', -, -, he⟩ | ⟨countdown', he⟩⟩ :=
            afterRound_cases r countdown c (c.silence d) current.dropEvents <;> simp only [he] <;> rfl
        | goes t' => exact .stays hb rfl rfl (Nat.add_lt_add_right (hless t' rfl) _)
        | ticked t' => exact .stays hb rfl rfl (Nat.add_lt_add_right (hless t' rfl) _)
    | _ => cases hb

theorem hasYielded_inner (hb : a.inner n = some b) : a.hasYielded = b.hasYielded := by
  induction n generalizing a with
  | zero => cases hb; rfl
  | succ n ih =>
    cases a with
    | within current rest => exact ih (a := current) hb
    | loopPass count children passes current => exact ih (a := current) hb
    | alertRound r t current => exact ih (a := current) hb
    | _ => cases hb

theorem besides_wake (k : Scene) (hb : a.inner n = some b) : a.wake.besides k n = a.besides k n := by
  induction n generalizing a with
  | zero => rfl
  | succ n ih =>
    cases a with
    | within current rest => exact ih (a := current) hb
    | loopPass count children passes current => exact ih (a := current) hb
    | alertRound r t current => exact congrArg (t.stirs k (r.isOff k.toMoment) + ·) (ih (a := current) hb)
    | _ => cases hb

theorem isInRound_wake (hb : a.inner n = some b) : a.wake.isInRound n = a.isInRound n := by
  induction n generalizing a with
  | zero => rfl
  | succ n ih =>
    cases a with
    | within current rest => exact ih (a := current) hb
    | loopPass count children passes current => exact ih (a := current) hb
    | alertRound r t current => rfl
    | _ => cases hb

end Activity

end StepTimer
