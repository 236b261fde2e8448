/-
What is done with a countdown. Between its runs it is settled, suspended and reported, and a run of it is asked to
stop at a floor, makes its moves at any instants and under any signals, and comes to its end or is given up (`Use`).
Whatever is done, what is left never goes up, stays within the range of a count of 64 bits, and so do the two differences
that are taken of it; the ticks are as long as they should be, and what is reported comes down from the total.
-/
import StepTimer.Proofs.Engine.Countdowns
import StepTimer.Proofs.Engine.Rounding

namespace StepTimer

/-- Whether a number fits a count of 64 bits with a sign. -/
def IsCount (n : Int) : Prop := countMin ≤ n ∧ n ≤ countMax

instance (n : Int) : Decidable (IsCount n) := inferInstanceAs (Decidable (_ ∧ _))

theorem isCount_zero : IsCount 0 := by decide

/-! ## Countdowns -/

namespace Countdown

variable {c : Countdown} {now : Instant}

/-- What is left goes down when the time passed is taken off. -/
theorem InRange.remaining_settle_le (h : c.InRange) (now : Instant) : (c.settle now).remaining ≤ c.remaining := by
  have hge := h.ge
  cases ha : c.anchor with
  | none =>
    have hsame : c.settle now = c := by simp [Countdown.settle, ha]
    exact Int.le_of_eq (congrArg remaining hsame)
  | some t =>
    rw [remaining_settle ha]
    simp only [countMax] at hge ⊢
    omega

theorem InRange.suspend (h : c.InRange) (now : Instant) : (c.suspend now).InRange :=
  ⟨(h.settle now).le, (h.settle now).ge⟩

theorem remaining_resume (c : Countdown) (now : Instant) : (c.resume now).remaining = c.remaining := by
  unfold resume
  split <;> rfl

/-- What is reported goes down with what is left. -/
theorem InRange.remainingMs_le {c' : Countdown} (h : c.InRange) (h' : c'.InRange) (hle : c'.remaining ≤ c.remaining) :
    c'.remainingMs ≤ c.remainingMs := by
  rw [UInt64.le_iff_toNat_le, h.toNat_remainingMs, h'.toNat_remainingMs]
  omega

/-- An interval below what is left is a count if anything is left. -/
theorem InRange.isCount_sub (h : c.InRange) (hleft : c.expired = false) (interval : UInt64) :
    IsCount (c.remaining - min (interval.toNat : Int) countMax) := by
  have hle := h.le
  simp only [expired, decide_eq_false_iff_not] at hleft
  simp only [IsCount, countMin, countMax] at hle ⊢
  omega

end Countdown

/-! ## Runs -/

/-- The countdown after a move of its run. -/
def TickMove.countdown : TickMove → Countdown
  | ended c => c
  | goes t => t.countdown
  | ticked t => t.countdown

namespace Ticking

variable {t t' : Ticking} {now alarm : Instant} {signals : Signals} {dismissed : Bool} {m : TickMove} {c : Countdown}

/-- A move takes off the time passed, or it takes nothing off. -/
theorem countdown_advance (h : t.advance now signals dismissed = some m) :
    m.countdown.remaining = t.countdown.remaining ∨ m.countdown.remaining = (t.countdown.settle now).remaining := by
  unfold advance at h
  split at h
  · split at h
    · cases h
      exact Or.inl rfl
    · split at h <;> cases h
      · exact Or.inr rfl
      · exact Or.inl (t.countdown.remaining_resume now)
  · split at h <;> cases h
    exact Or.inl rfl
  · split at h <;> cases h
    exact Or.inr rfl

theorem floor_advance (h : t.advance now signals dismissed = some m) (ht : m.ticking? = some t') :
    t'.floor = t.floor := by
  unfold advance at h
  split at h
  · split at h
    · cases h; cases ht
    · split at h <;> (cases h; cases ht; rfl)
  · split at h <;> cases h
    cases ht
    rfl
  · split at h <;> cases h
    cases ht
    rfl

/-- A countdown goes to sleep for a tick if it is above its floor. -/
theorem asleep_of_advance (h : t.advance now signals dismissed = some (.goes t')) (hp : t'.phase = .asleep alarm) :
    t.floor < t.countdown.remaining ∧ alarm = now.plusMillis t.tick.toNat ∧ t'.countdown = t.countdown.resume now := by
  unfold advance at h
  split at h
  · split at h
    · cases h
    · rename_i hgo
      simp only [Bool.or_eq_true, decide_eq_true_eq, not_or] at hgo
      split at h <;> cases h <;> cases hp
      exact ⟨by omega, rfl, rfl⟩
  · split at h <;> cases h
    cases hp
  · split at h <;> cases h

/-- A run ends by an abort, by a dismissal or at its floor. -/
theorem ended_of_advance (h : t.advance now signals dismissed = some (.ended c)) :
    c = t.countdown ∧ (signals.aborted = true ∨ dismissed = true ∨ c.remaining ≤ t.floor) := by
  unfold advance at h
  split at h
  · split at h
    · rename_i hend
      cases h
      simp only [Bool.or_eq_true, decide_eq_true_eq] at hend
      exact ⟨rfl, by tauto⟩
    · split at h <;> cases h
  · split at h <;> cases h
  · split at h <;> cases h

end Ticking

/-! ## Uses -/

/-- A countdown in use. -/
inductive Usage where
  /-- No run of it is under way. -/
  | resting (c : Countdown)
  /-- A run of it is under way, for which some floor was asked. -/
  | running (asked : Int) (t : Ticking)

/-- The use of a countdown after a move of its run. -/
def TickMove.usage (asked : Int) : TickMove → Usage
  | ended c => .resting c
  | goes t => .running asked t
  | ticked t => .running asked t

/-- What is reported of a countdown by a move of its run. -/
def TickMove.reports : TickMove → List UInt64
  | ticked t => (t.reportAs.map fun _ => t.countdown.remainingMs).toList
  | _ => []

namespace Usage

def countdown : Usage → Countdown
  | resting c => c
  | running _ t => t.countdown

/-- What can be done with a countdown, and what is reported of it then. -/
inductive Use : Usage → List UInt64 → Usage → Prop
  | settle (c : Countdown) (now : Instant) : Use (resting c) [] (resting (c.settle now))
  | suspend (c : Countdown) (now : Instant) : Use (resting c) [] (resting (c.suspend now))
  | report (c : Countdown) : Use (resting c) [c.remainingMs] (resting c)
  | run (c : Countdown) {asked : Int} (h : IsCount asked) (reportAs : Option StepId) :
    Use (resting c) [] (running asked (.start c asked reportAs))
  | advance {asked : Int} {t : Ticking} {now : Instant} {signals : Signals} {dismissed : Bool} {m : TickMove}
      (h : t.advance now signals dismissed = some m) : Use (running asked t) m.reports (m.usage asked)
  /-- The run is given up where it is. -/
  | drop (asked : Int) (t : Ticking) : Use (running asked t) [] (resting t.countdown)

/-- What can be done with a countdown in many steps, and what is reported of it, the oldest first. -/
inductive Uses : Usage → List UInt64 → Usage → Prop
  | refl (u : Usage) : Uses u [] u
  | tail {u v w : Usage} {reports more : List UInt64} (h : Uses u reports v) (hu : Use v more w) :
    Uses u (reports ++ more) w

variable {u u' : Usage} {reports more : List UInt64} {total : UInt64} {begun : Instant}

theorem Use.uses (h : Use u reports u') : Uses u reports u' := (Uses.refl u).tail h

theorem Uses.trans {w : Usage} (h : Uses u reports u') (h' : Uses u' more w) : Uses u (reports ++ more) w := by
  induction h' with
  | refl => rw [List.append_nil]; exact h
  | tail _ hu ih => rw [← List.append_assoc]; exact ih.tail hu

/-- What one use does: what is left goes down and stays in its range, and no more than this is reported. -/
theorem Use.lowers (h : Use u reports u') (hr : u.countdown.InRange) :
    u'.countdown.InRange ∧ u'.countdown.remaining ≤ u.countdown.remaining ∧
      ∀ r ∈ reports, r = u'.countdown.remainingMs := by
  cases h with
  | settle c now => exact ⟨hr.settle now, hr.remaining_settle_le now, List.forall_mem_nil _⟩
  | suspend c now => exact ⟨hr.suspend now, hr.remaining_settle_le now, List.forall_mem_nil _⟩
  | report c => exact ⟨hr, Int.le_refl _, List.forall_mem_singleton.2 rfl⟩
  | run c h reportAs => exact ⟨hr, Int.le_refl _, List.forall_mem_nil _⟩
  | drop asked t => exact ⟨hr, Int.le_refl _, List.forall_mem_nil _⟩
  | @advance asked t now signals dismissed m h =>
    have hsame : (m.usage asked).countdown = m.countdown := by cases m <;> rfl
    have hreports : ∀ r ∈ m.reports, r = m.countdown.remainingMs := by
      cases m with
      | ticked t => simp [TickMove.reports, TickMove.countdown]
      | ended c | goes t => exact List.forall_mem_nil _
    rw [hsame]
    have hsettle := hr.settle now
    have hle := hr.remaining_settle_le now
    -- only what is left matters for the range: a move can also leave it and set the anchor anew
    rcases Ticking.countdown_advance h with hrem | hrem
    · exact ⟨⟨hrem ▸ hr.le, hrem ▸ hr.ge⟩, Int.le_of_eq hrem, hreports⟩
    · exact ⟨⟨hrem ▸ hsettle.le, hrem ▸ hsettle.ge⟩, hrem ▸ hle, hreports⟩

/-- What holds of a countdown in use, with all that was reported of it. -/
structure Kept (total : UInt64) (reports : List UInt64) (u : Usage) : Prop where
  inRange : u.countdown.InRange
  below : ∀ r ∈ total :: reports, u.countdown.remainingMs ≤ r
  descending : (total :: reports).Pairwise (· ≥ ·)
  floor : ∀ asked t, u = running asked t → t.floor = max asked 0

theorem kept_start (total : UInt64) (begun : Instant) : Kept total [] (resting (.start total begun)) := by
  have hr := Countdown.inRange_start total begun
  refine ⟨hr, List.forall_mem_singleton.2 ?_, List.pairwise_singleton _ _, fun asked t h => by cases h⟩
  rw [UInt64.le_iff_toNat_le, countdown, hr.toNat_remainingMs, Countdown.start]
  simp only [countMax]
  omega

theorem Kept.use (h : Kept total reports u) (hu : Use u more u') : Kept total (reports ++ more) u' := by
  obtain ⟨hr, hle, hnew⟩ := hu.lowers h.inRange
  have hlower : u'.countdown.remainingMs ≤ u.countdown.remainingMs := h.inRange.remainingMs_le hr hle
  have hold : ∀ r ∈ total :: reports, u'.countdown.remainingMs ≤ r := fun r hmem =>
    UInt64.le_trans hlower (h.below r hmem)
  -- the new reports are what is left now, the old ones were no less than what was left before
  refine ⟨hr, fun r hmem => ?_, ?_, fun asked t heq => ?_⟩
  · rcases List.mem_append.1 (show r ∈ (total :: reports) ++ more from hmem) with hmem | hmem
    · exact hold r hmem
    · exact UInt64.le_of_eq (hnew r hmem).symm
  · refine List.pairwise_append.2
      ⟨h.descending, List.pairwise_of_forall_mem_list fun r hr r' hr' => ?_, fun r hr r' hr' => ?_⟩
    · rw [hnew r hr, hnew r' hr']
      exact UInt64.le_refl _
    · rw [hnew r' hr']
      exact hold r hr
  · cases hu with
    | run c hasked reportAs =>
      cases heq
      rfl
    | @advance asked' t' now signals dismissed m hm =>
      cases m with
      | ended c => cases heq
      | goes t'' | ticked t'' =>
        cases heq
        exact (Ticking.floor_advance hm rfl).trans (h.floor _ _ rfl)
    | settle | suspend | report | drop => cases heq

theorem Uses.kept (h : Uses (resting (.start total begun)) reports u) : Kept total reports u := by
  induction h with
  | refl => exact kept_start total begun
  | tail _ hu ih => exact ih.use hu

/-- The total itself can be reported at first. -/
theorem Kept.announced (h : Kept total reports u) : Kept total (total :: reports) u := by
  have hfirst : ∀ r ∈ total :: reports, total ≥ r :=
    List.forall_mem_cons.2 ⟨UInt64.le_refl _, (List.pairwise_cons.1 h.descending).1⟩
  have hbelow : ∀ r ∈ total :: total :: reports, u.countdown.remainingMs ≤ r :=
    List.forall_mem_cons.2 ⟨h.below total List.mem_cons_self, h.below⟩
  exact ⟨h.inRange, hbelow, List.pairwise_cons.2 ⟨hfirst, h.descending⟩, h.floor⟩

/-! ## Bounds -/

/-- Whether what is computed of a countdown in use, and what is seen of it, is within its bounds. -/
structure InBounds (total : UInt64) (reports : List UInt64) (u : Usage) : Prop where
  /-- What is left is a count, and no more than the total. -/
  left : IsCount u.countdown.remaining ∧ u.countdown.remaining ≤ total.toNat
  /-- It never goes up. -/
  lowers : ∀ {more : List UInt64} {u' : Usage}, Use u more u' → u'.countdown.remaining ≤ u.countdown.remaining
  /-- What is reported comes down from the total. -/
  descending : (total :: reports).Pairwise (· ≥ ·)
  /-- The difference to a floor that is an interval below what is left is a count if anything is left. -/
  floor : u.countdown.expired = false → ∀ interval : UInt64,
    IsCount (u.countdown.remaining - min (interval.toNat : Int) countMax)
  /-- When a run goes to sleep, the difference to its floor is a count, and it sleeps for at least one millisecond and at
  most a tick, and for no longer than this difference; so not past the floor, if it was settled just then. -/
  tick : ∀ {asked : Int} {t t' : Ticking} {now alarm : Instant} {signals : Signals} {dismissed : Bool},
    u = running asked t → t.advance now signals dismissed = some (.goes t') → t'.phase = .asleep alarm →
    IsCount (t.countdown.remaining - max asked 0) ∧
      (∃ ms : Nat, alarm = now.plusMillis ms ∧ 1 ≤ ms ∧ ms ≤ 250 ∧ ms ≤ t.countdown.remaining - max asked 0) ∧
      (t.countdown.anchor = none ∨ t.countdown.anchor = some now → max asked 0 ≤ t'.countdown.left alarm)
  /-- A run that is not ended by an abort or a dismissal ends at its floor. -/
  ended : ∀ {asked : Int} {t : Ticking} {now : Instant} {signals : Signals} {dismissed : Bool} {c : Countdown},
    u = running asked t → t.advance now signals dismissed = some (.ended c) → signals.aborted = false →
    dismissed = false → c.remaining ≤ max asked 0

theorem Kept.inBounds (h : Kept total reports u) : InBounds total reports u := by
  have hle := h.inRange.le
  have hge := h.inRange.ge
  refine ⟨⟨⟨hge, hle⟩, ?_⟩, fun hu => (hu.lowers h.inRange).2.1, h.descending, h.inRange.isCount_sub, ?_, ?_⟩
  · have hbelow := UInt64.le_iff_toNat_le.1 (h.below total List.mem_cons_self)
    rw [h.inRange.toNat_remainingMs] at hbelow
    omega
  · rintro asked t t' now alarm signals dismissed rfl hm hasleep
    obtain ⟨habove, rfl, hnext⟩ := Ticking.asleep_of_advance hm hasleep
    rw [← h.floor asked t rfl]
    have hfloor : 0 ≤ t.floor := by rw [h.floor asked t rfl]; exact Int.le_max_right _ _
    have htick : 1 ≤ t.tick ∧ t.tick ≤ 250 ∧ t.tick ≤ t.countdown.remaining - t.floor := by
      simp only [Ticking.tick, tickMs]
      omega
    refine ⟨?_, ⟨t.tick.toNat, rfl, by omega, by omega, by omega⟩, fun hsettled => ?_⟩
    · change t.countdown.remaining ≤ countMax at hle
      simp only [IsCount, countMin, countMax] at hle ⊢
      omega
    · have hanchor : (t.countdown.resume now).anchor = some now := by
        unfold Countdown.resume
        rcases hsettled with ha | ha <;> simp [ha, Countdown.anchorAt]
      rw [hnext, Countdown.left_plusMillis hanchor, t.countdown.remaining_resume]
      omega
  · rintro asked t now signals dismissed c rfl hm habort hdismissed
    obtain ⟨-, hcause⟩ := Ticking.ended_of_advance hm
    rw [← h.floor asked t rfl]
    simpa [habort, hdismissed] using hcause

end Usage

end StepTimer
