/-
The last moves of an alert that was dismissed. Nothing holds it any more, not even a pause, and if its round had
come to rest each of its moves is one towards its end, of which a few are left at most (`closing`). Then the run
is between the step of the alert and the next one (`Between`), where only a pause holds it.
-/
import StepTimer.Proofs.Solo.Span

namespace StepTimer

namespace Activity

variable {c : Circumstances} {d : Devices} {m : Move} {a b : Activity} {r : Raised} {n k : Nat}

/-! ## The alert -/

/-- An alert that was dismissed does not wait. -/
theorem advance_ne_none_of_isDismissed (hr : a.raised? = some r) (hd : r.isDismissed d = true) : a.advance c d ≠ none := by
  have hticks (t : Ticking) : t.advance c.now c.signals (r.isDismissed d) ≠ none :=
    Option.isSome_iff_ne_none.1 (Ticking.isSome_advance (Or.inr hd))
  cases a with
  | alertTop _ countdown => simp [advance]
  | alertHeld _ countdown =>
    cases hr
    simp [advance, hd]
  | alertRound _ t current =>
    cases hr
    exact fun hn => hticks t (advance_of_round_rests hn)
  | alertGap _ t =>
    cases hr
    exact fun hn => hticks t (Option.map_eq_none_iff.1 hn)
  | _ => cases hr

/-- The moves that a dismissed alert has before it if its round is at rest. -/
def closing : Activity → Nat
  | alertTop _ _ => 1
  | alertHeld _ _ => 2
  | alertGap _ t => t.span + 1
  | alertRound _ t _ => t.span + 2
  | _ => 0

theorem closing_pos (hr : a.raised? = some r) : 0 < a.closing := by
  cases a <;> first | exact Nat.succ_pos _ | cases hr

/-- Whether the round that an alert is in, if any, is at rest. -/
def RoundRests (c : Circumstances) (d : Devices) : Activity → Prop
  | alertRound _ _ current => current.isDone = false ∧ current.advance c d = none
  | _ => True

/-- A move of a dismissed alert whose round is at rest brings it nearer to its end. -/
theorem closing_advance (hr : a.raised? = some r) (hd : r.isDismissed d = true) (hrests : a.RoundRests c d)
    (hm : a.advance c d = some m) : m.next.closing < a.closing ∧ ∀ c, a.RoundRests c d → m.next.RoundRests c m.devices := by
  have hafter (countdown : Countdown) (d : Devices) (events : List Event) :
      (r.afterRound countdown c d events).next.closing ≤ 2 ∧
        ∀ c', (r.afterRound countdown c d events).next.RoundRests c' (r.afterRound countdown c d events).devices := by
    obtain ⟨report, -, ⟨t, ht, -, he⟩ | ⟨countdown', he⟩⟩ := afterRound_cases r countdown c d events <;> rw [he]
    · exact ⟨by simp [closing, Ticking.span, ht], fun _ => trivial⟩
    · exact ⟨by simp [closing], fun _ => trivial⟩
  cases a with
  | alertTop _ countdown =>
    cases hr
    cases hm
    unfold advanceAlertTop
    rw [if_pos (by simp [hd])]
    exact ⟨Nat.one_pos, fun _ _ => trivial⟩
  | alertHeld _ countdown =>
    cases hr
    rw [advance_alertHeld hm]
    exact ⟨Nat.lt_succ_self 1, fun _ _ => trivial⟩
  | alertRound _ t current =>
    cases hr
    obtain ⟨hnot, hnone⟩ := hrests
    rcases advance_alertRound hm with ⟨hdone, -⟩ | ⟨m', hm', -⟩ | hm
    · rw [hnot] at hdone
      cases hdone
    · rw [hnone] at hm'
      cases hm'
    · rcases beside_cases hm with ⟨countdown, rfl⟩ | ⟨tm, t', htm, ht', hnext, hdev, -⟩
      · obtain ⟨hle, hrest⟩ := hafter countdown (c.silence d) current.dropEvents
        have hpos := t.span_pos
        exact ⟨Nat.lt_of_le_of_lt hle (by simp only [closing]; omega), fun c' _ => hrest c'⟩
      · rw [hnext, hdev]
        exact ⟨Nat.add_lt_add_right (Ticking.span_advance (Or.inr hd) htm ht') 2, fun _ hrests => hrests⟩
  | alertGap _ t =>
    cases hr
    obtain ⟨hdev, ⟨countdown, hnext, -⟩ | ⟨tm, t', htm, ht', hnext, -⟩⟩ := advance_alertGap hm <;> rw [hnext, hdev]
    · have hpos := t.span_pos
      exact ⟨by simp only [closing]; omega, fun _ _ => trivial⟩
    · exact ⟨Nat.add_lt_add_right (Ticking.span_advance (Or.inr hd) htm ht') 1, fun _ _ => trivial⟩
  | _ => cases hr

/-! ## A run at rest -/

/-- What cannot move is in no round that can. -/
theorem roundRests_of_rest (hn : a.advance c d = none) : a.RoundRests c d := by
  cases a with
  | alertRound r t current =>
    have hnot : current.isDone = false := by
      refine Bool.eq_false_iff.2 fun hdone => ?_
      simp [advance, hdone] at hn
    exact ⟨hnot, advance_inner_eq_none (n := 1) (b := current) rfl hn⟩
  | _ => trivial

/-- The dismissal of an alert is nothing to its round. -/
theorem RoundRests.dismiss (h : a.RoundRests c d) (hr : a.raised? = some r) (hk : r.notice = some k)
    (hnodup : a.notices.Nodup) : a.RoundRests c (d.dismiss k) := by
  cases a with
  | alertRound _ t current =>
    cases hr
    obtain ⟨hnot, hnone⟩ := h
    have hapart : k ∉ current.notices := by
      intro hmem
      have hdisjoint := (List.nodup_append.1 hnodup).2.2
      exact hdisjoint k (by simp [hk]) k hmem rfl
    refine ⟨hnot, ?_⟩
    rw [advance_dismiss hapart, hnone]
    rfl
  | _ => trivial

/-- Whether no countdown beside the rounds that are around a depth can move. -/
def AroundRests (now : Instant) (signals : Signals) (d : Devices) : Nat → Activity → Prop
  | 0, _ => True
  | n + 1, within current _ => current.AroundRests now signals d n
  | n + 1, alertRound r t current => t.advance now signals (r.isDismissed d) = none ∧ current.AroundRests now signals d n
  | n + 1, loopPass _ _ _ current => current.AroundRests now signals d n
  | _ + 1, _ => True

theorem aroundRests_of_rest (hb : a.inner n = some b) (hn : a.advance c d = none) : a.AroundRests c.now c.signals d n := by
  induction n generalizing a with
  | zero => trivial
  | succ n ih =>
    cases a with
    | within current rest => exact ih hb (advance_inner_eq_none (n := 1) rfl hn)
    | loopPass count children passes current => exact ih hb (advance_inner_eq_none (n := 1) rfl hn)
    | alertRound r t current =>
      exact ⟨advance_of_round_rests hn, ih hb (advance_inner_eq_none (n := 1) (b := current) rfl hn)⟩
    | _ => trivial

/-- The notifications of what is at a depth are notifications of what is around it. -/
theorem notices_inner (hb : a.inner n = some b) : ∀ k ∈ b.notices, k ∈ a.notices := by
  induction n generalizing a with
  | zero => cases hb; exact fun k hk => hk
  | succ n ih =>
    cases a with
    | within current rest => exact ih (a := current) hb
    | loopPass count children passes current => exact ih (a := current) hb
    | alertRound r t current => exact fun k hk => List.mem_append_right _ (ih hb k hk)
    | _ => cases hb

/-- The dismissal of an alert is nothing to the alerts around it. -/
theorem AroundRests.dismiss {now : Instant} {signals : Signals} (h : a.AroundRests now signals d n)
    (hb : a.inner n = some b) (hk : k ∈ b.notices) (hnodup : a.notices.Nodup) :
    a.AroundRests now signals (d.dismiss k) n ∧ b.notices.Nodup := by
  induction n generalizing a with
  | zero =>
    cases hb
    exact ⟨trivial, hnodup⟩
  | succ n ih =>
    cases a with
    | within current rest => exact ih h hb hnodup
    | loopPass count children passes current => exact ih h hb hnodup
    | alertRound r t current =>
      obtain ⟨-, hcurrent, hdisjoint⟩ := List.nodup_append.1 hnodup
      have hapart : k ∉ r.notice.toList := fun hmem => hdisjoint k hmem k (notices_inner (a := current) hb k hk) rfl
      refine ⟨⟨?_, (ih h.2 hb hcurrent).1⟩, (ih h.2 hb hcurrent).2⟩
      rw [isDismissed_dismiss hapart]
      exact h.1
    | _ => cases hb

/-- When nothing around it can move, a move is a move of what is at the depth, and leaves that so. -/
theorem AroundRests.advance (h : a.AroundRests c.now c.signals d n) (hb : a.inner n = some b) (hnot : b.isDone = false)
    (hm : a.advance c d = some m) : ∃ mb, b.advance c d = some mb ∧ m.next.inner n = some mb.next ∧
      m.devices = mb.devices ∧ m.events = mb.events ∧ m.next.AroundRests c.now c.signals m.devices n := by
  induction n generalizing a m with
  | zero =>
    cases hb
    exact ⟨m, hm, rfl, rfl, rfl, trivial⟩
  | succ n ih =>
    have hgo {current : Activity} (hcur : current.inner n = some b) : current.isDone = false := not_isDone_of_inner hcur hnot
    cases a with
    | within current rest =>
      rcases advance_within hm with ⟨hd, -⟩ | ⟨m', hm', rfl⟩
      · rw [hgo hb] at hd
        cases hd
      · exact ih h hb hm'
    | loopPass count children passes current =>
      rcases advance_loopPass hm with ⟨hd, -⟩ | ⟨m', hm', rfl⟩
      · rw [hgo hb] at hd
        cases hd
      · exact ih h hb hm'
    | alertRound r t current =>
      rcases advance_alertRound hm with ⟨hd, -⟩ | ⟨m', hm', rfl⟩ | hm
      · rw [hgo hb] at hd
        cases hd
      · obtain ⟨mb, hmb, hnext, hdev, hevents, haround⟩ := ih h.2 hb hm'
        exact ⟨mb, hmb, hnext, hdev, hevents, (isDismissed_advance hm' r).symm ▸ h.1, haround⟩
      · unfold advanceBeside at hm
        rw [h.1] at hm
        cases hm
    | _ => cases hb

/-! ## The end of the step -/

theorem entered?_inner (hb : a.inner n = some b) : a.entered? = b.entered? := by
  induction n generalizing a with
  | zero => cases hb; rfl
  | succ n ih =>
    cases a with
    | within current rest => exact ih (a := current) hb
    | loopPass count children passes current => exact ih (a := current) hb
    | alertRound r t current => exact ih (a := current) hb
    | _ => cases hb

/-- A move of an alert step stays in it, or ends the alert. -/
theorem advance_within_raised {rest : List Step} (hr : a.raised? = some r) (hm : (within a rest).advance c d = some m) :
    (∃ m', a.advance c d = some m' ∧ m'.next.raised? = some r ∧ m = { m' with next := within m'.next rest }) ∨
      m = ⟨within done rest, c.silence d, [.progress r.id none]⟩ := by
  rcases advance_within hm with ⟨hdone, -⟩ | ⟨m', hm', rfl⟩
  · cases a <;> cases hdone
    cases hr
  · rcases advance_raised hr hm' with hnext | ⟨-, rfl⟩
    · exact Or.inl ⟨m', hm', hnext, rfl⟩
    · exact Or.inr rfl

/-- A run that is over with a step and not yet in the next one. -/
inductive Between (rest : List Step) : Activity → Prop
  | ended : Between rest (within done rest)
  | ready : Between rest (ready rest)
  | held {s : Step} {later : List Step} (h : rest = s :: later) : Between rest (held rest)

variable {rest : List Step}

theorem Between.isDone_eq (h : Between rest a) : a.isDone = false := by cases h <;> rfl

theorem Between.wake (h : Between rest a) : Between rest a.wake := by
  cases h with
  | ended => exact .ended
  | ready => exact .ready
  | held h => exact .held h

/-- The next step becomes active, unless the run is paused; when there is none, the list is over. -/
theorem Between.advance (h : Between rest a) (ha : c.signals.aborted = false) (hm : a.advance c d = some m) :
    Between rest m.next ∨
      (c.signals.paused = false ∧ ∃ s later, rest = s :: later ∧ m.next = within (entering s) later) ∨
        rest = [] ∧ m.next = done := by
  cases h with
  | ended =>
    cases hm
    exact Or.inl .ready
  | ready =>
    cases rest with
    | nil =>
      cases hm
      exact Or.inr (Or.inr ⟨rfl, rfl⟩)
    | cons s later =>
      simp only [Activity.advance, ha, Bool.false_eq_true, if_false] at hm
      split at hm <;> cases hm
      · exact Or.inl (.held rfl)
      · rename_i hp
        exact Or.inr (Or.inl ⟨by simpa using hp, s, later, rfl, rfl⟩)
  | @held s later h =>
    subst h
    simp only [Activity.advance, ha, Bool.false_eq_true, if_false] at hm
    split at hm <;> cases hm
    rename_i hp
    exact Or.inr (Or.inl ⟨by simpa using hp, s, later, rfl, rfl⟩)

/-- Only a pause keeps a run from its next step. -/
theorem Between.paused_of_rest (h : Between rest a) (hn : a.advance c d = none) : c.signals.paused = true := by
  cases h with
  | ended => cases hn
  | ready =>
    cases rest with
    | nil => cases hn
    | cons s later =>
      simp only [Activity.advance] at hn
      split at hn
      · cases hn
      · split at hn <;> cases hn
  | @held s later h =>
    subst h
    simp only [Activity.advance] at hn
    split at hn
    · cases hn
    · split at hn
      · assumption
      · cases hn

end Activity

end StepTimer
