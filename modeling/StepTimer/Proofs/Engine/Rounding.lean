/-
What is lost in rounding. When a countdown is settled, the whole milliseconds since its anchor are taken off and
it is anchored anew, so what has passed beyond them (`crumbs`) is never taken off. Settled in many ticks, a
countdown is therefore ahead of one that is settled once, by as many milliseconds as the crumbs come to; there is
no bound on that.
-/
import StepTimer.Engine.Countdown
import Mathlib.Data.List.Chain

namespace StepTimer

namespace Instant

/-- Whether some instants come one after the other. -/
def Ascending (ts : List Instant) : Prop := ts.IsChain fun t u => t.nanos ≤ u.nanos

/-- The milliseconds between instants, rounded down each time. -/
def wholeMillis : Instant → List Instant → Nat
  | _, [] => 0
  | t, u :: ts => u.millisSince t + wholeMillis u ts

/-- The nanoseconds that this leaves out. -/
def crumbs : Instant → List Instant → Nat
  | _, [] => 0
  | t, u :: ts => u.since t % nanosPerMilli + crumbs u ts

/-- Rounding leaves nothing out but the crumbs. -/
theorem wholeMillis_crumbs {t : Instant} {ts : List Instant} (h : Ascending (t :: ts)) :
    wholeMillis t ts * nanosPerMilli + crumbs t ts = (ts.getLastD t).since t ∧ t.nanos ≤ (ts.getLastD t).nanos := by
  induction ts generalizing t with
  | nil => exact ⟨by simp [wholeMillis, crumbs, since], Nat.le_refl _⟩
  | cons u ts ih =>
    obtain ⟨hfirst, hrest⟩ := List.isChain_cons_cons.1 h
    obtain ⟨hsum, hle⟩ := ih hrest
    have hsplit := Nat.div_add_mod (u.since t) nanosPerMilli
    rw [List.getLastD_cons]
    refine ⟨?_, Nat.le_trans hfirst hle⟩
    calc (u.millisSince t + wholeMillis u ts) * nanosPerMilli + (u.since t % nanosPerMilli + crumbs u ts)
        = (nanosPerMilli * (u.since t / nanosPerMilli) + u.since t % nanosPerMilli) +
            (wholeMillis u ts * nanosPerMilli + crumbs u ts) := by rw [millisSince, Nat.add_mul, Nat.mul_comm]; omega
      _ = (ts.getLastD u).since t := by rw [hsplit, hsum]; simp only [since] at *; omega

/-- So in one go as many milliseconds more are counted as the crumbs come to. -/
theorem millisSince_getLastD {t : Instant} {ts : List Instant} (h : Ascending (t :: ts)) :
    (ts.getLastD t).millisSince t = wholeMillis t ts + crumbs t ts / nanosPerMilli := by
  rw [millisSince, ← (wholeMillis_crumbs h).1, Nat.add_comm, Nat.add_mul_div_right _ _ (by decide), Nat.add_comm]

theorem crumbs_lt {ts : List Instant} (hne : ts ≠ []) (t : Instant) : crumbs t ts < ts.length * nanosPerMilli := by
  induction ts generalizing t with
  | nil => exact absurd rfl hne
  | cons u ts ih =>
    have hlt := Nat.mod_lt (u.since t) (show 0 < nanosPerMilli by decide)
    have hrest : crumbs u ts ≤ ts.length * nanosPerMilli := by
      by_cases hnil : ts = []
      · rw [hnil]; exact Nat.zero_le _
      · exact Nat.le_of_lt (ih hnil u)
    rw [List.length_cons, Nat.succ_mul, crumbs]
    omega

theorem wholeMillis_of_short {t : Instant} {ts : List Instant}
    (h : (t :: ts).IsChain fun t u => u.since t < nanosPerMilli) : wholeMillis t ts = 0 := by
  induction ts generalizing t with
  | nil => rfl
  | cons u ts ih =>
    obtain ⟨hfirst, hrest⟩ := List.isChain_cons_cons.1 h
    rw [wholeMillis, ih hrest, millisSince, Nat.div_eq_of_lt hfirst]

end Instant

namespace Countdown

open Instant

variable {c : Countdown} {t now : Instant} {ts : List Instant}

/-- A countdown that is settled at some instants, one after the other. -/
def settledAt (c : Countdown) (ts : List Instant) : Countdown := ts.foldl settle c

/-- A countdown that counts within its range. -/
structure InRange (c : Countdown) : Prop where
  le : c.remaining ≤ countMax
  ge : countMin ≤ c.remaining

theorem inRange_start (total : UInt64) (now : Instant) : (start total now).InRange := by
  constructor <;> simp only [start, countMin, countMax] <;> omega

theorem remaining_settle (h : c.anchor = some t) (now : Instant) :
    (c.settle now).remaining = max countMin (c.remaining - min (now.millisSince t : Int) countMax) := by
  simp only [settle, h]

theorem InRange.settle (h : c.InRange) (now : Instant) : (c.settle now).InRange := by
  have hle := h.le
  cases ha : c.anchor with
  | none => simpa [Countdown.settle, ha] using h
  | some t =>
    constructor <;> rw [remaining_settle ha] <;> simp only [countMin, countMax] at hle ⊢ <;> omega

theorem InRange.settledAt (h : c.InRange) (ts : List Instant) : (c.settledAt ts).InRange := by
  induction ts generalizing c with
  | nil => exact h
  | cons u ts ih => exact ih (h.settle u)

theorem anchor_settle (h : c.anchor = some t) (now : Instant) : (c.settle now).anchor = some now := by simp [settle, h]

theorem anchor_settledAt (h : c.anchor = some t) (ts : List Instant) : (c.settledAt ts).anchor = some (ts.getLastD t) := by
  induction ts generalizing c t with
  | nil => exact h
  | cons u ts ih =>
    rw [List.getLastD_cons]
    exact ih (anchor_settle h u)

/-- What a countdown in its range reads. -/
theorem InRange.toNat_remainingMs (h : c.InRange) : c.remainingMs.toNat = c.remaining.toNat := by
  have hle := h.le
  simp only [remainingMs, UInt64.toNat_ofNat', countMax] at hle ⊢
  omega

/-- What a countdown reads sinks by the whole milliseconds of each tick, down to zero. -/
theorem remainingMs_settledAt (h : c.anchor = some t) (hr : c.InRange) (ts : List Instant) :
    (c.settledAt ts).remainingMs.toNat = c.remainingMs.toNat - wholeMillis t ts := by
  induction ts generalizing c t with
  | nil => rfl
  | cons u ts ih =>
    have hle := hr.le
    have hone : (c.settle u).remainingMs.toNat = c.remainingMs.toNat - u.millisSince t := by
      rw [(hr.settle u).toNat_remainingMs, hr.toNat_remainingMs, remaining_settle h]
      simp only [countMin, countMax] at hle ⊢
      omega
    have hrest := ih (anchor_settle h u) (hr.settle u)
    rw [show c.settledAt (u :: ts) = (c.settle u).settledAt ts from rfl, hrest, hone, wholeMillis]
    omega

/-- So does what is left, also below zero, as long as it stays in its range. -/
theorem remaining_settledAt (h : c.anchor = some t) (hle : (wholeMillis t ts : Int) ≤ countMax)
    (hge : countMin ≤ c.remaining - wholeMillis t ts) : (c.settledAt ts).remaining = c.remaining - wholeMillis t ts := by
  induction ts generalizing c t with
  | nil => exact (Int.sub_zero _).symm
  | cons u ts ih =>
    rw [wholeMillis] at hle hge ⊢
    have hone : (c.settle u).remaining = c.remaining - u.millisSince t := by
      rw [remaining_settle h]
      omega
    rw [show c.settledAt (u :: ts) = (c.settle u).settledAt ts from rfl,
      ih (anchor_settle h u) (by omega) (by omega), hone]
    omega

/-- Ticks that are all shorter than a millisecond take nothing off, however many they are. -/
theorem remaining_of_short_ticks (h : c.anchor = some t) (hr : c.InRange)
    (hshort : (t :: ts).IsChain fun t u => u.since t < nanosPerMilli) : (c.settledAt ts).remaining = c.remaining := by
  have hzero := wholeMillis_of_short hshort
  have hge := hr.ge
  rw [remaining_settledAt h (by rw [hzero]; decide) (by rw [hzero]; omega), hzero]
  exact Int.sub_zero _

/-- A countdown that is settled in ticks, against the same countdown settled once, at the end. What it reads
is ahead by the milliseconds that the crumbs of the ticks come to, of which there are fewer than ticks; and so is what
is left, as long as it is in its range. So the two agree just when the crumbs come to less than a millisecond. -/
theorem settled_in_ticks (total : UInt64) {t₀ : Instant} {ticks : List Instant}
    (h : Ascending (t₀ :: (ticks ++ [now]))) :
    ((start total t₀).settledAt (ticks ++ [now])).anchor = ((start total t₀).settle now).anchor ∧
    crumbs t₀ (ticks ++ [now]) / nanosPerMilli ≤ ticks.length ∧
    ((start total t₀).settle now).remainingMs.toNat =
      ((start total t₀).settledAt (ticks ++ [now])).remainingMs.toNat - crumbs t₀ (ticks ++ [now]) / nanosPerMilli ∧
    ((now.millisSince t₀ : Int) ≤ countMax →
      ((start total t₀).settledAt (ticks ++ [now])).remaining =
        ((start total t₀).settle now).remaining + (crumbs t₀ (ticks ++ [now]) / nanosPerMilli : Nat) ∧
      (((start total t₀).settledAt (ticks ++ [now])).remaining = ((start total t₀).settle now).remaining ↔
        crumbs t₀ (ticks ++ [now]) < nanosPerMilli)) := by
  have hlast : (ticks ++ [now]).getLastD t₀ = now := by simp
  have hmillis := millisSince_getLastD h
  rw [hlast] at hmillis
  have hr := inRange_start total t₀
  have hanchor : (start total t₀).anchor = some t₀ := rfl
  refine ⟨?_, ?_, ?_, fun hle => ?_⟩
  · rw [anchor_settledAt hanchor, anchor_settle hanchor, hlast]
  · have hlt := crumbs_lt (show ticks ++ [now] ≠ [] by simp) t₀
    have hfew := Nat.div_lt_of_lt_mul (Nat.mul_comm _ _ ▸ hlt)
    rw [List.length_append, List.length_singleton] at hfew
    exact Nat.le_of_lt_succ hfew
  · have honce := remainingMs_settledAt hanchor hr [now]
    rw [show (start total t₀).settledAt [now] = (start total t₀).settle now from rfl,
      show wholeMillis t₀ [now] = now.millisSince t₀ from Nat.add_zero _] at honce
    rw [honce, remainingMs_settledAt hanchor hr, hmillis, Nat.sub_sub]
  · have hnonneg : 0 ≤ (start total t₀).remaining := by simp only [start, countMax]; omega
    have honce : ((start total t₀).settle now).remaining = (start total t₀).remaining - now.millisSince t₀ := by
      rw [remaining_settle hanchor]
      simp only [countMin, countMax] at hle ⊢
      omega
    have hticks : ((start total t₀).settledAt (ticks ++ [now])).remaining =
        (start total t₀).remaining - wholeMillis t₀ (ticks ++ [now]) := by
      have hwhole : wholeMillis t₀ (ticks ++ [now]) ≤ now.millisSince t₀ := hmillis ▸ Nat.le_add_right _ _
      refine remaining_settledAt hanchor ?_ ?_ <;> simp only [countMin, countMax] at hle ⊢ <;> omega
    have hiff : crumbs t₀ (ticks ++ [now]) / nanosPerMilli = 0 ↔ crumbs t₀ (ticks ++ [now]) < nanosPerMilli :=
      Nat.div_eq_zero_iff_lt (by decide)
    rw [hticks, honce, ← hiff]
    generalize crumbs t₀ (ticks ++ [now]) / nanosPerMilli = lost at hmillis ⊢
    constructor <;> omega

/-- Four quarters of a second, each seen almost a millisecond late: a second is over when 1003 milliseconds have
passed. -/
theorem settled_in_ticks_late :
    ((start 1000 ⟨0⟩).settledAt [⟨250900000⟩, ⟨501800000⟩, ⟨752700000⟩, ⟨1003600000⟩]).remaining = 0 ∧
      ((start 1000 ⟨0⟩).settle ⟨1003600000⟩).remaining = -3 := by
  have h : Ascending (⟨0⟩ :: ([⟨250900000⟩, ⟨501800000⟩, ⟨752700000⟩] ++ [⟨1003600000⟩])) := by
    simp [Ascending]
  have hahead := ((settled_in_ticks 1000 h).2.2.2 (by decide)).1
  have honce : ((start 1000 ⟨0⟩).settle ⟨1003600000⟩).remaining = -3 := by decide
  refine ⟨?_, honce⟩
  rw [honce] at hahead
  exact hahead.trans (by decide)

end Countdown

end StepTimer
