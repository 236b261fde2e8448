/-
What is left on a countdown, on a clock that moves by whole milliseconds. The time since the anchor
is taken off in one go or in many, and a pause that is seen drops the anchor: what is left
(`Countdown.left`) is the same after every move at an instant, sinks by each millisecond that passes
while the countdown sleeps, and stands still while it is held.
-/
import StepTimer.Proofs.Engine.Moves

namespace StepTimer

namespace Instant

theorem plusMillis_zero (t : Instant) : t.plusMillis 0 = t := by simp [plusMillis]

theorem plusMillis_plusMillis (t : Instant) (j k : Nat) : (t.plusMillis j).plusMillis k = t.plusMillis (j + k) := by
  simp only [plusMillis, Instant.mk.injEq]
  rw [Nat.add_mul, Nat.add_assoc]

theorem plusMillis_le_iff (t : Instant) (j k : Nat) : (t.plusMillis j).nanos ≤ (t.plusMillis k).nanos ↔ j ≤ k := by
  simp only [plusMillis, Nat.add_le_add_iff_left]
  exact Nat.mul_le_mul_right_iff (by decide)

theorem plusMillis_inj {t : Instant} {j k : Nat} (h : t.plusMillis j = t.plusMillis k) : j = k :=
  Nat.le_antisymm ((t.plusMillis_le_iff j k).1 (Nat.le_of_eq (congrArg nanos h)))
    ((t.plusMillis_le_iff k j).1 (Nat.le_of_eq (congrArg nanos h.symm)))

theorem plusMillis_sub {t : Instant} {j k : Nat} (h : (t.plusMillis j).nanos ≤ (t.plusMillis k).nanos) :
    (t.plusMillis j).plusMillis (k - j) = t.plusMillis k := by
  rw [t.plusMillis_plusMillis, Nat.add_sub_cancel' ((t.plusMillis_le_iff j k).1 h)]

theorem millis_plusMillis (t : Instant) (k : Nat) : (t.plusMillis k).millis = t.millis + k := by
  simp only [millis, plusMillis]
  exact Nat.add_mul_div_right _ _ (by decide)

theorem millisSince_self (t : Instant) : t.millisSince t = 0 := by simp [millisSince, since]

end Instant

namespace Countdown

/-- The milliseconds that are left at an instant. -/
def left (c : Countdown) (now : Instant) : Int := c.remaining - c.anchor.elim 0 fun t => (now.millisSince t : Int)

/-- A countdown that stands still, or is anchored at this very instant. -/
structure IsAt (c : Countdown) (now : Instant) : Prop where
  anchor : c.anchor = none ∨ c.anchor = some now
  nonneg : 0 ≤ c.remaining
  le : c.remaining ≤ countMax

/-- A countdown from whose anchor some whole milliseconds have passed, not more than were left. -/
structure IsBehind (c : Countdown) (now : Instant) : Prop where
  anchor : c.anchor = none ∨ ∃ t, ∃ k : Nat, c.anchor = some t ∧ now = t.plusMillis k ∧ (k : Int) ≤ c.remaining
  nonneg : 0 ≤ c.remaining
  le : c.remaining ≤ countMax

variable {c : Countdown} {now : Instant}

theorem left_of_anchor_none (h : c.anchor = none) : c.left now = c.remaining := by simp [left, h]

theorem left_plusMillis {t : Instant} (h : c.anchor = some t) (k : Nat) : c.left (t.plusMillis k) = c.remaining - k := by
  simp [left, h, Instant.millisSince_plusMillis]

theorem IsAt.left_eq (h : c.IsAt now) : c.left now = c.remaining := by
  rcases h.anchor with ha | ha
  · exact left_of_anchor_none ha
  · simp [left, ha, Instant.millisSince_self]

theorem IsAt.isBehind (h : c.IsAt now) : c.IsBehind now := by
  refine ⟨h.anchor.imp_right fun ha => ⟨now, 0, ha, now.plusMillis_zero.symm, ?_⟩, h.nonneg, h.le⟩
  simpa using h.nonneg

theorem isAt_start (total : UInt64) (now : Instant) : (start total now).IsAt now := by
  refine ⟨Or.inr rfl, ?_, ?_⟩ <;> simp only [start, countMax] <;> omega

theorem left_start {total : UInt64} (h : (total.toNat : Int) ≤ countMax) (now : Instant) :
    (start total now).left now = total.toNat := by
  rw [(isAt_start total now).left_eq]
  exact Int.min_eq_left h

/-- The time since the anchor is taken off exactly. -/
theorem IsBehind.settle (h : c.IsBehind now) :
    (c.settle now).IsAt now ∧ (c.settle now).left now = c.left now ∧
      (c.anchor = none → (c.settle now).anchor = none) := by
  rcases h.anchor with ha | ⟨t, k, ha, rfl, hk⟩
  · have hsame : c.settle now = c := by simp [Countdown.settle, ha]
    rw [hsame]
    exact ⟨⟨Or.inl ha, h.nonneg, h.le⟩, rfl, id⟩
  · have hle := h.le
    have heq : c.settle (t.plusMillis k) = ⟨c.remaining - k, some (t.plusMillis k)⟩ := by
      simp only [Countdown.settle, ha, Instant.millisSince_plusMillis, Countdown.mk.injEq, and_true]
      simp only [countMax, countMin] at hle ⊢
      omega
    have hat : (c.settle (t.plusMillis k)).IsAt (t.plusMillis k) := by
      rw [heq]
      refine ⟨Or.inr rfl, ?_, ?_⟩ <;> simp only <;> omega
    refine ⟨hat, ?_, fun hn => ?_⟩
    · rw [hat.left_eq, heq, left_plusMillis ha]
    · rw [ha] at hn; cases hn

theorem IsBehind.suspend (h : c.IsBehind now) :
    (c.suspend now).IsAt now ∧ (c.suspend now).anchor = none ∧ (c.suspend now).remaining = c.left now := by
  obtain ⟨hat, hleft, -⟩ := h.settle
  refine ⟨⟨Or.inl rfl, hat.nonneg, hat.le⟩, rfl, ?_⟩
  rw [← hleft, hat.left_eq]
  rfl

theorem IsAt.resume (h : c.IsAt now) :
    (c.resume now).anchor = some now ∧ (c.resume now).remaining = c.remaining := by
  unfold Countdown.resume
  rcases h.anchor with ha | ha <;> simp [ha, anchorAt]

theorem IsAt.left_anchorAt (h : c.IsAt now) : (c.anchorAt now).left now = c.left now := by
  rw [h.left_eq]
  simp [left, anchorAt, Instant.millisSince_self]

/-- What is reported is what is left. -/
theorem IsAt.remainingMs (h : c.IsAt now) : (c.remainingMs.toNat : Int) = c.left now := by
  have hle := h.le
  have hnonneg := h.nonneg
  rw [h.left_eq]
  simp only [Countdown.remainingMs, UInt64.toNat_ofNat', countMax] at hle ⊢
  omega

end Countdown

namespace Ticking

/-- Where a running countdown is, as far as its phase says. -/
def IsPlaced (t : Ticking) (now : Instant) : Prop :=
  match t.phase with
  | .top => t.countdown.anchor = none ∨ t.countdown.anchor = some now
  | .held => t.countdown.anchor = none
  | .asleep alarm => ∃ start, ∃ j k : Nat, t.countdown.anchor = some start ∧ now = start.plusMillis j ∧
      alarm = start.plusMillis k ∧ j ≤ k ∧ 0 < k ∧ (k : Int) ≤ t.countdown.remaining - t.floor

/-- A running countdown that is in order: it has not gone below its floor, and its alarm is set for a
time at which it will not have. -/
structure InOrder (t : Ticking) (now : Instant) : Prop where
  floor : 0 ≤ t.floor
  enough : t.floor ≤ t.countdown.remaining
  le : t.countdown.remaining ≤ countMax
  placed : t.IsPlaced now

variable {t : Ticking} {now : Instant} {signals : Signals} {dismissed : Bool} {m : TickMove}

theorem inOrder_start {c : Countdown} (h : c.IsAt now) {floor : Int} (hf : floor ≤ c.remaining) (reportAs : Option StepId) :
    (start c floor reportAs).InOrder now :=
  ⟨Int.le_max_right _ _, Int.max_le.2 ⟨hf, h.nonneg⟩, h.le, h.anchor⟩

theorem InOrder.isAt (h : t.InOrder now) (hp : t.phase = .top) : t.countdown.IsAt now := by
  have hplaced := h.placed
  rw [IsPlaced, hp] at hplaced
  exact ⟨hplaced, Int.le_trans h.floor h.enough, h.le⟩

/-- Wherever a running countdown is, the time passed can be taken off. -/
theorem InOrder.isBehind (h : t.InOrder now) : t.countdown.IsBehind now := by
  have hnonneg := Int.le_trans h.floor h.enough
  have hplaced := h.placed
  rw [IsPlaced] at hplaced
  split at hplaced
  · exact Countdown.IsAt.isBehind ⟨hplaced, hnonneg, h.le⟩
  · exact ⟨Or.inl hplaced, hnonneg, h.le⟩
  · obtain ⟨start, j, k, ha, hnow, -, hjk, -, hk⟩ := hplaced
    have hfloor := h.floor
    exact ⟨Or.inr ⟨start, j, ha, hnow, by omega⟩, hnonneg, h.le⟩

theorem InOrder.floor_le_left (h : t.InOrder now) : t.floor ≤ t.countdown.left now := by
  have hplaced := h.placed
  rw [IsPlaced] at hplaced
  split at hplaced
  · rw [Countdown.IsAt.left_eq ⟨hplaced, Int.le_trans h.floor h.enough, h.le⟩]
    exact h.enough
  · rw [Countdown.left_of_anchor_none hplaced]
    exact h.enough
  · obtain ⟨start, j, k, ha, rfl, -, hjk, -, hk⟩ := hplaced
    rw [Countdown.left_plusMillis ha]
    omega

/-- What a move of a running countdown keeps. Its time has been taken off, so that what it reports is
what is left. -/
structure Goes (t t' : Ticking) (now : Instant) : Prop where
  inOrder : t'.InOrder now
  isAt : t'.countdown.IsAt now
  left : t'.countdown.left now = t.countdown.left now
  floor : t'.floor = t.floor
  reportAs : t'.reportAs = t.reportAs

/-- The end of a running countdown: it is aborted, or its step dismissed, or it has come to its floor. -/
structure Ends (t : Ticking) (c : Countdown) (now : Instant) (signals : Signals) (dismissed : Bool) : Prop where
  isAt : c.IsAt now
  left : c.left now = t.countdown.left now
  cause : signals.aborted = true ∨ dismissed = true ∨ c.left now = t.floor

/-- The time is taken off and the countdown goes on in another phase. -/
theorem InOrder.goes (h : t.InOrder now) {c : Countdown} {phase : TickPhase} (hat : c.IsAt now)
    (hleft : c.left now = t.countdown.left now)
    (hplaced : IsPlaced { t with countdown := c, phase := phase } now) :
    t.Goes { t with countdown := c, phase := phase } now := by
  refine ⟨⟨h.floor, ?_, hat.le, hplaced⟩, hat, hleft, rfl, rfl⟩
  have hfloor := h.floor_le_left
  rw [← hleft, hat.left_eq] at hfloor
  exact hfloor

/-- A move of a running countdown takes nothing from what is left. -/
theorem InOrder.advance (h : t.InOrder now) (hm : t.advance now signals dismissed = some m) :
    (∃ c, m = .ended c ∧ t.Ends c now signals dismissed) ∨ ∃ t', m.ticking? = some t' ∧ t.Goes t' now := by
  have hbehind := h.isBehind
  unfold Ticking.advance at hm
  split at hm <;> rename_i hphase
  · have hat := h.isAt hphase
    split at hm
    · rename_i hend
      cases hm
      refine Or.inl ⟨_, rfl, hat, rfl, ?_⟩
      simp only [Bool.or_eq_true, decide_eq_true_eq] at hend
      rcases hend with (hend | hend) | hend
      · exact Or.inl hend
      · refine Or.inr (Or.inr ?_)
        rw [hat.left_eq]
        exact Int.le_antisymm hend h.enough
      · exact Or.inr (Or.inl hend)
    · rename_i hgo
      split at hm <;> cases hm <;> refine Or.inr ⟨_, rfl, ?_⟩
      · -- the pause is seen, and the countdown stands still from now on
        obtain ⟨hat', hnone, hrem⟩ := hbehind.suspend
        exact h.goes hat' (by rw [hat'.left_eq, hrem]) hnone
      · obtain ⟨hanchor, hrem⟩ := hat.resume
        have hat' : (t.countdown.resume now).IsAt now :=
          ⟨Or.inr hanchor, by rw [hrem]; exact hat.nonneg, by rw [hrem]; exact hat.le⟩
        have hpos : t.floor < t.countdown.remaining := by
          simp only [Bool.or_eq_true, decide_eq_true_eq, not_or] at hgo
          omega
        refine h.goes hat' (by rw [hat'.left_eq, hat.left_eq, hrem])
          ⟨now, 0, t.tick.toNat, hanchor, now.plusMillis_zero.symm, rfl, Nat.zero_le _, ?_, ?_⟩
        · simp only [Ticking.tick, tickMs]; omega
        · rw [hrem]; simp only [Ticking.tick, tickMs]; omega
  · split at hm <;> cases hm
    have hnone : t.countdown.anchor = none := by
      have hplaced := h.placed
      rwa [IsPlaced, hphase] at hplaced
    have hat : t.countdown.IsAt now := ⟨Or.inl hnone, Int.le_trans h.floor h.enough, h.le⟩
    exact Or.inr ⟨_, rfl, h.goes ⟨Or.inr rfl, hat.nonneg, hat.le⟩ hat.left_anchorAt (Or.inr rfl)⟩
  · split at hm <;> cases hm
    obtain ⟨hat, hleft, -⟩ := hbehind.settle
    exact Or.inr ⟨_, rfl, h.goes hat hleft hat.anchor⟩

/-- A running countdown that does not go on is held by a pause, or asleep. -/
theorem rests_cases (hn : t.advance now signals dismissed = none) :
    t.phase = .held ∧ signals.paused = true ∨
      ∃ alarm, t.phase = .asleep alarm ∧ now.nanos < alarm.nanos ∧ signals.paused = false := by
  unfold Ticking.advance at hn
  split at hn
  · split at hn
    · cases hn
    · split at hn <;> cases hn
  · rename_i hphase
    split at hn
    · cases hn
    · rename_i hheld
      simp only [Bool.or_eq_true, Bool.not_eq_true', not_or, Bool.not_eq_false] at hheld
      exact Or.inl ⟨hphase, hheld.1.1⟩
  · rename_i alarm hphase
    split at hn
    · cases hn
    · rename_i hasleep
      simp only [Bool.or_eq_true, decide_eq_true_eq, not_or, Nat.not_le, Bool.not_eq_true] at hasleep
      exact Or.inr ⟨alarm, hphase, hasleep.1.1.1, hasleep.1.1.2⟩

/-- Time passes: what is left sinks, unless a pause holds the countdown. -/
theorem InOrder.pass (h : t.InOrder now) (hn : t.advance now signals dismissed = none) {ms : Nat}
    (halarms : ∀ a ∈ t.alarms, (now.plusMillis ms).nanos ≤ a.nanos) :
    t.InOrder (now.plusMillis ms) ∧
      t.countdown.left (now.plusMillis ms) = t.countdown.left now - (if signals.paused then 0 else ms : Nat) := by
  have hplaced := h.placed
  rcases rests_cases hn with ⟨hphase, hp⟩ | ⟨alarm, hphase, -, hp⟩
  · rw [IsPlaced, hphase] at hplaced
    refine ⟨⟨h.floor, h.enough, h.le, ?_⟩, ?_⟩
    · rw [IsPlaced, hphase]; exact hplaced
    · simp [Countdown.left_of_anchor_none hplaced, hp]
  · rw [IsPlaced, hphase] at hplaced
    obtain ⟨start, j, k, ha, rfl, rfl, hjk, hpos, hk⟩ := hplaced
    have hle : j + ms ≤ k := by
      rw [← start.plusMillis_le_iff, ← start.plusMillis_plusMillis]
      exact halarms _ (by simp [Ticking.alarms, hphase])
    rw [start.plusMillis_plusMillis]
    refine ⟨⟨h.floor, h.enough, h.le, ?_⟩, ?_⟩
    · rw [IsPlaced, hphase]
      exact ⟨start, j + ms, k, ha, rfl, rfl, hle, hpos, hk⟩
    · rw [Countdown.left_plusMillis ha, Countdown.left_plusMillis ha]
      simp only [hp]
      push_cast
      omega

end Ticking

end StepTimer
