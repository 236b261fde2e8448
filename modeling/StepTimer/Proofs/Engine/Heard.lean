/-
What is heard of an activity. Seen from a depth, a move is a move of what is there, with all that is seen of it,
or a countdown moves that is around it, of which nothing is heard, or it is given up with the round that it is in
(`HeardMove`). Outside of the rounds of alerts there is only the first.
-/
import StepTimer.Proofs.Engine.Nested

namespace StepTimer

/-- Whether an event is heard: the beginning or the end of a sound. -/
def Event.isHeard : Event → Bool
  | play _ => true
  | finish _ => true
  | fail _ => true
  | cut _ => true
  | _ => false

namespace Activity

variable {c : Circumstances} {d : Devices} {m : Move} {n : Nat} {a b : Activity}

theorem not_isHeard_report {t : Ticking} : ∀ e ∈ t.report, e.isHeard = false := by
  intro e he
  unfold Ticking.report at he
  split at he
  · cases List.mem_singleton.1 he
    rfl
  · cases he

/-- What is heard of a move, for an activity at a depth. -/
inductive HeardMove (c : Circumstances) (d : Devices) (n : Nat) (a b : Activity) (m : Move) : Prop
  /-- It moves, and the move is this one. -/
  | moves {mb : Move} (hmb : b.advance c d = some mb) (hnext : m.next.inner n = some mb.next) (hd : m.devices = mb.devices)
      (hround : m.next.isInRound n = a.isInRound n) (hevents : m.events = mb.events)
  /-- A countdown around it moves, and nothing is heard. -/
  | stays (hnext : m.next.inner n = some b) (hd : m.devices = d) (hround : m.next.isInRound n = a.isInRound n)
      (hin : a.isInRound n = true) (hquiet : ∀ e ∈ m.events, e.isHeard = false)
  /-- It is given up with the round that it is in. -/
  | dropped (hnext : m.next.inner n = none) (hin : a.isInRound n = true)

theorem heard_advance (hb : a.inner n = some b) (hnot : b.isDone = false) (hm : a.advance c d = some m) :
    HeardMove c d n a b m := by
  induction n generalizing a m with
  | zero =>
    cases hb
    exact .moves hm rfl rfl rfl rfl
  | succ n ih =>
    have hgo {current : Activity} (hcur : current.inner n = some b) : current.isDone = false := not_isDone_of_inner hcur hnot
    cases a with
    | within current rest =>
      rcases advance_within hm with ⟨hd, -⟩ | ⟨m', hm', rfl⟩
      · rw [hgo hb] at hd; cases hd
      · cases ih hb hm' with
        | moves hmb hnext hd hround hevents => exact .moves hmb hnext hd hround hevents
        | stays hnext hd hround hin hquiet => exact .stays hnext hd hround hin hquiet
        | dropped hnext hin => exact .dropped hnext hin
    | loopPass count children passes current =>
      rcases advance_loopPass hm with ⟨hd, -⟩ | ⟨m', hm', rfl⟩
      · rw [hgo hb] at hd; cases hd
      · cases ih hb hm' with
        | moves hmb hnext hd hround hevents => exact .moves hmb hnext hd hround hevents
        | stays hnext hd hround hin hquiet => exact .stays hnext hd hround hin hquiet
        | dropped hnext hin => exact .dropped hnext hin
    | alertRound r t current =>
      rcases advance_alertRound hm with ⟨hd, -⟩ | ⟨m', hm', rfl⟩ | hm
      · rw [hgo hb] at hd; cases hd
      · cases ih hb hm' with
        | moves hmb hnext hd _ hevents => exact .moves hmb hnext hd rfl hevents
        | stays hnext hd _ _ hquiet => exact .stays hnext hd rfl rfl hquiet
        | dropped hnext _ => exact .dropped hnext rfl
      · rcases beside_cases hm with ⟨countdown, rfl⟩ | ⟨tm, t', -, -, hnext, hd, hevents⟩
        · refine .dropped ?_ rfl
          obtain ⟨report, -, ⟨t', -, -, he⟩ | ⟨countdown', he⟩⟩ :=
            afterRound_cases r countdown c (c.silence d) current.dropEvents <;> rw [he] <;> rfl
        · refine .stays (by rw [hnext]; exact hb) hd (by rw [hnext]; rfl) rfl fun e he => ?_
          rcases hevents with hnone | hreport
          · rw [hnone] at he
            cases he
          · rw [hreport] at he
            exact not_isHeard_report e he
    | _ => cases hb

/-- Outside of the rounds of alerts the moves of an activity are the moves of what it is in. -/
theorem advance_outside (hb : a.inner n = some b) (hnot : b.isDone = false) (hround : a.isInRound n = false)
    (hm : a.advance c d = some m) :
    ∃ mb, b.advance c d = some mb ∧ m.next.inner n = some mb.next ∧ m.next.isInRound n = false ∧
      m.devices = mb.devices ∧ m.events = mb.events := by
  cases heard_advance hb hnot hm with
  | moves hmb hnext hd hsame hevents => exact ⟨_, hmb, hnext, hsame.trans hround, hd, hevents⟩
  | stays _ _ _ hin => rw [hround] at hin; cases hin
  | dropped _ hin => rw [hround] at hin; cases hin

end Activity

end StepTimer
