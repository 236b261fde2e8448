/-
Activities within each other. A run is in lists of steps, passes of loops and rounds of alerts, one in
the other, and `inner` is what it is in at a depth. A move of the run is a move of what is there, or it
leaves it as it is, or what is around it is given up; when the run cannot go on, neither can what is
there, and its alarms are alarms of the run.
-/
import StepTimer.Proofs.Engine.Moves

namespace StepTimer

namespace Activity

/-- What an activity is in at a depth, counted in lists of steps, rounds of alerts and passes of loops. -/
def inner : Nat → Activity → Option Activity
  | 0, a => some a
  | n + 1, within current _ => inner n current
  | n + 1, alertRound _ _ current => inner n current
  | n + 1, loopPass _ _ _ current => inner n current
  | _ + 1, _ => none

variable {c : Circumstances} {d : Devices} {m : Move} {n : Nat} {a b : Activity}

theorem isDone_of_inner (h : a.inner n = some b) (ha : a.isDone = true) : b.isDone = true := by
  cases n with
  | zero => cases h; exact ha
  | succ n =>
    cases a with
    | done => cases h
    | _ => cases ha

/-- What is in an activity that is done would be done, too. -/
theorem not_isDone_of_inner (h : a.inner n = some b) (hnot : b.isDone = false) : a.isDone = false := by
  refine Bool.eq_false_iff.2 fun ha => ?_
  rw [isDone_of_inner h ha] at hnot
  cases hnot

theorem inner_add (n k : Nat) (a : Activity) : a.inner (n + k) = (a.inner n).bind (·.inner k) := by
  induction n generalizing a with
  | zero => rw [Nat.zero_add]; rfl
  | succ n ih =>
    rw [Nat.succ_add]
    cases a with
    | within current rest => exact ih current
    | loopPass count children passes current => exact ih current
    | alertRound r t current => exact ih current
    | _ => rfl

/-- What a move of an activity is for what it is in. -/
inductive InnerMove (c : Circumstances) (d : Devices) (n : Nat) (b : Activity) (m : Move) : Prop
  /-- It moves, and the move is this one. -/
  | moves {mb : Move} (h : b.advance c d = some mb) (hnext : m.next.inner n = some mb.next) (hd : m.devices = mb.devices)
  /-- A countdown around it moves. -/
  | stays (hnext : m.next.inner n = some b)
  /-- It is given up with what is around it. -/
  | dropped (hnext : m.next.inner n = none)

theorem inner_advance (hb : a.inner n = some b) (hnot : b.isDone = false) (h : a.advance c d = some m) :
    InnerMove c d n b m := by
  induction n generalizing a m with
  | zero => cases hb; exact .moves h rfl rfl
  | succ n ih =>
    have hgo {current : Activity} (hcur : current.inner n = some b) : current.isDone = false := not_isDone_of_inner hcur hnot
    have hlift {current : Activity} {m' : Move} (hcur : current.inner n = some b) (hm' : current.advance c d = some m')
        (hnext : m.next.inner (n + 1) = m'.next.inner n) (hd : m.devices = m'.devices) : InnerMove c d (n + 1) b m := by
      cases ih hcur hm' with
      | moves hmb hinner hdev => exact .moves hmb (hnext.trans hinner) (hd.trans hdev)
      | stays hinner => exact .stays (hnext.trans hinner)
      | dropped hinner => exact .dropped (hnext.trans hinner)
    cases a with
    | within current rest =>
      rcases advance_within h with ⟨hd, -⟩ | ⟨m', hm', rfl⟩
      · rw [hgo hb] at hd; cases hd
      · exact hlift hb hm' rfl rfl
    | loopPass count children passes current =>
      rcases advance_loopPass h with ⟨hd, -⟩ | ⟨m', hm', rfl⟩
      · rw [hgo hb] at hd; cases hd
      · exact hlift hb hm' rfl rfl
    | alertRound r t current =>
      rcases advance_alertRound h with ⟨hd, -⟩ | ⟨m', hm', rfl⟩ | h
      · rw [hgo hb] at hd; cases hd
      · exact hlift hb hm' rfl rfl
      · rcases beside_cases h with ⟨countdown, rfl⟩ | ⟨tm, t', -, -, hnext, -⟩
        · refine .dropped ?_
          obtain ⟨report, -, ⟨t', -, -, h⟩ | ⟨countdown', h⟩⟩ :=
            afterRound_cases r countdown c (c.silence d) current.dropEvents <;> rw [h] <;> rfl
        · refine .stays ?_
          rw [hnext]
          exact hb
    | _ => cases hb

/-- An activity that does not go on is in nothing that does. -/
theorem advance_inner_eq_none (hb : a.inner n = some b) (h : a.advance c d = none) : b.advance c d = none := by
  induction n generalizing a with
  | zero => cases hb; exact h
  | succ n ih =>
    cases a with
    | within current rest =>
      simp only [advance] at h
      split at h
      · cases h
      · exact ih hb (by simpa using h)
    | loopPass count children passes current =>
      simp only [advance] at h
      split at h
      · cases h
      · exact ih hb (by simpa using h)
    | alertRound r t current =>
      simp only [advance] at h
      split at h
      · cases h
      · split at h <;> simp only [Option.or_eq_none_iff, Option.map_eq_none_iff] at h
        · exact ih hb h.1
        · exact ih hb h.2
    | _ => cases hb

/-- When all coins fall so, what an activity is in moves before the countdowns around it. -/
theorem advance_inner_first {mb : Move} (hc : c.coin = true) (hb : a.inner n = some b) (hm : b.advance c d = some mb) :
    ∃ m, a.advance c d = some m ∧ m.next.inner n = some mb.next := by
  induction n generalizing a with
  | zero => cases hb; exact ⟨mb, hm, rfl⟩
  | succ n ih =>
    have hgo {current : Activity} (hcur : current.inner n = some b) : ¬ current.isDone = true := by
      rw [not_isDone_of_inner hcur (not_isDone_of_advance hm)]
      exact Bool.false_ne_true
    cases a with
    | within current rest =>
      obtain ⟨m, hadvance, hnext⟩ := ih hb
      exact ⟨{ m with next := within m.next rest }, by rw [advance, if_neg (hgo hb), hadvance]; rfl, hnext⟩
    | loopPass count children passes current =>
      obtain ⟨m, hadvance, hnext⟩ := ih hb
      exact ⟨{ m with next := loopPass count children passes m.next },
        by rw [advance, if_neg (hgo hb), hadvance]; rfl, hnext⟩
    | alertRound r t current =>
      obtain ⟨m, hadvance, hnext⟩ := ih hb
      exact ⟨_, advance_alertRound_first hc hadvance, hnext⟩
    | _ => cases hb

theorem alarms_inner (hb : a.inner n = some b) : ∀ t ∈ b.alarms, t ∈ a.alarms := by
  induction n generalizing a with
  | zero => cases hb; exact fun t ht => ht
  | succ n ih =>
    cases a with
    | within current rest => exact ih (a := current) hb
    | loopPass count children passes current => exact ih (a := current) hb
    | alertRound r t current => exact fun t ht => List.mem_append_right _ (ih hb t ht)
    | _ => cases hb

theorem call?_inner (hb : a.inner n = some b) : a.call? = b.call? := by
  induction n generalizing a with
  | zero => cases hb; rfl
  | succ n ih =>
    cases a with
    | within current rest => exact ih (a := current) hb
    | loopPass count children passes current => exact ih (a := current) hb
    | alertRound r t current => exact ih (a := current) hb
    | _ => cases hb

theorem inner_wake (hb : a.inner n = some b) : a.wake.inner n = some b.wake := by
  induction n generalizing a with
  | zero => cases hb; rfl
  | succ n ih =>
    cases a with
    | within current rest => exact ih (a := current) hb
    | loopPass count children passes current => exact ih (a := current) hb
    | alertRound r t current => exact ih (a := current) hb
    | _ => cases hb

end Activity

end StepTimer
