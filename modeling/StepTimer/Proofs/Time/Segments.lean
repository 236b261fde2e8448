/-
What a stopwatch shows after any calls. Behind the last reset or restart the calls fall into turns, each of which ends
with a pause, and a turn has at most one running segment, from its first start to its pause; the first start behind
the last pause is where the running segment begins that is still open. The stopwatch shows the sum of these segments,
in nanoseconds, and rounds it down once. A start or a pause changes nothing that it shows at that instant, so from one
reset to the next what it shows goes up.
-/
import StepTimer.Proofs.Engine.Rounding
import StepTimer.Time.Stopwatch
import Mathlib.Algebra.GroupWithZero.Nat

namespace StepTimer

namespace Stopwatch

/-- A call on a stopwatch. -/
inductive Call where
  | start (now : Instant)
  | pause (now : Instant)
  | restart (now : Instant)
  | reset
deriving DecidableEq, Repr

namespace Call

/-- Whether a call sets the stopwatch back to zero. -/
def zeroes : Call → Bool
  | start _ | pause _ => false
  | restart _ | reset => true

/-- What a call comes to if it is the first one since zero: a reset leaves nothing, and a restart its start. -/
def remains : Call → List Call
  | start now | restart now => [start now]
  | pause now => [pause now]
  | reset => []

/-- The instant that comes with a call. -/
def instant? : Call → Option Instant
  | start now | pause now | restart now => some now
  | reset => none

end Call

/-- The stopwatch after a call. -/
def act (w : Stopwatch) : Call → Stopwatch
  | .start now => w.start now
  | .pause now => w.pause now
  | .restart now => w.restart now
  | .reset => w.reset

/-- A new stopwatch after calls, the first one first. -/
def after (calls : List Call) : Stopwatch := calls.foldl act {}

/-! ## Segments -/

/-- The calls behind the last reset or restart, with the start that a restart leaves. -/
def sinceZero : List Call → List Call
  | [] => []
  | call :: calls => if calls.any Call.zeroes then sinceZero calls else call.remains ++ calls

/-- Starts and pauses cut behind each pause: the starts of each turn with the pause that ends it, and the starts
behind the last pause. -/
def turns : List Call → List (List Instant × Instant) × List Instant
  | [] => ([], [])
  | .start now :: calls =>
    match turns calls with
    | ([], later) => ([], now :: later)
    | ((starts, stop) :: more, later) => ((now :: starts, stop) :: more, later)
  | .pause now :: calls => (([], now) :: (turns calls).1, (turns calls).2)
  | _ :: calls => turns calls

/-- The segments that are closed: of each turn from its first start to its pause, if it has a start. -/
def segments (calls : List Call) : List (Instant × Instant) :=
  (turns calls).1.filterMap fun turn => turn.1.head?.map (·, turn.2)

/-- The begin of the segment that is open. -/
def openSince? (calls : List Call) : Option Instant := (turns calls).2.head?

variable {w : Stopwatch} {calls between : List Call} {call : Call} {t u : Instant}

theorem segments_start_pause : segments (.start t :: .pause u :: calls) = (t, u) :: segments calls := rfl

theorem openSince?_start_pause : openSince? (.start t :: .pause u :: calls) = openSince? calls := rfl

theorem turns_start : turns (.start t :: calls) = match turns calls with
    | ([], later) => ([], t :: later)
    | ((starts, stop) :: more, later) => ((t :: starts, stop) :: more, later) := rfl

/-- A second start has no part in the segments. -/
theorem segments_start_start : segments (.start t :: .start u :: calls) = segments (.start t :: calls) := by
  rw [segments, segments, turns_start, turns_start, turns_start]
  rcases turns calls with ⟨_ | ⟨⟨starts, stop⟩, more⟩, later⟩ <;> rfl

theorem openSince?_start_start : openSince? (.start t :: .start u :: calls) = openSince? (.start t :: calls) := by
  rw [openSince?, openSince?, turns_start, turns_start, turns_start]
  rcases turns calls with ⟨_ | ⟨⟨starts, stop⟩, more⟩, later⟩ <;> rfl

/-- The nanoseconds of the closed segments. -/
def closedNanos (calls : List Call) : Nat := ((segments calls).map fun s => s.2.nanos - s.1.nanos).sum

/-! ## The calls since zero -/

theorem not_zeroes_sinceZero (calls : List Call) : ∀ call ∈ sinceZero calls, call.zeroes = false := by
  induction calls with
  | nil => exact fun call h => absurd h List.not_mem_nil
  | cons first calls ih =>
    rw [sinceZero]
    split
    next => exact ih
    next hnone =>
      have rest : ∀ call ∈ calls, call.zeroes = false := by simpa using hnone
      cases first with
      | reset => exact rest
      | start now | restart now | pause now => exact List.forall_mem_cons.2 ⟨rfl, rest⟩

/-- Calls that set the stopwatch back leave nothing of what it was before. -/
theorem foldl_act_of_zeroes (h : calls.any Call.zeroes = true) (w : Stopwatch) :
    calls.foldl act w = after (sinceZero calls) := by
  induction calls generalizing w with
  | nil => cases h
  | cons first calls ih =>
    rw [sinceZero, List.foldl_cons]
    split
    next hrest => exact ih hrest (w.act first)
    next hnone =>
      have hfirst : first.zeroes = true := by simpa [hnone] using h
      cases first with
      | reset | restart now => rfl
      | start now | pause now => cases hfirst

theorem sinceZero_of_not_zeroes (h : ∀ call ∈ calls, call.zeroes = false) : sinceZero calls = calls := by
  cases calls with
  | nil => rfl
  | cons first calls =>
    obtain ⟨hfirst, hrest⟩ := List.forall_mem_cons.1 h
    rw [sinceZero, if_neg (by simpa using hrest)]
    cases first with
    | start now | pause now => rfl
    | reset | restart now => cases hfirst

/-- Only the calls since zero count. -/
theorem after_sinceZero (calls : List Call) : after (sinceZero calls) = after calls := by
  cases h : calls.any Call.zeroes with
  | true => exact (foldl_act_of_zeroes h {}).symm
  | false => rw [sinceZero_of_not_zeroes (by simpa using h)]

/-! ## Accounts -/

/-- What starts and pauses come to on a stopwatch, which may be running already: the closed segments are added, and
the begin of the open one is kept. -/
theorem foldl_act_of_not_zeroes (h : ∀ call ∈ calls, call.zeroes = false) (w : Stopwatch) :
    calls.foldl act w =
      ⟨w.total + closedNanos (w.startedAt.toList.map .start ++ calls), openSince? (w.startedAt.toList.map .start ++ calls)⟩ := by
  -- by the calls: a segment that is open stands before them as the start that opened it
  induction calls generalizing w with
  | nil => rcases w with ⟨total, _ | begun⟩ <;> rfl
  | cons first calls ih =>
    obtain ⟨hfirst, hrest⟩ := List.forall_mem_cons.1 h
    rw [List.foldl_cons, ih hrest]
    rcases w with ⟨total, _ | begun⟩
    · cases first with
      | start now | pause now => rfl
      | reset | restart now => cases hfirst
    · cases first with
      | start now =>
        simp only [act, start, Option.toList_some, List.map_cons, List.map_nil, List.cons_append, List.nil_append,
          closedNanos, segments_start_start, openSince?_start_start]
      | pause now =>
        simp only [act, pause, Option.toList_some, Option.toList_none, List.map_cons, List.map_nil, List.cons_append,
          List.nil_append, closedNanos, segments_start_pause, openSince?_start_pause, List.sum_cons, Nat.add_assoc,
          Instant.since]
      | reset | restart now => cases hfirst

theorem after_eq (calls : List Call) : after calls = ⟨closedNanos (sinceZero calls), openSince? (sinceZero calls)⟩ := by
  rw [← after_sinceZero, after, foldl_act_of_not_zeroes (not_zeroes_sinceZero calls)]
  simp only [Option.toList_none, List.map_nil, List.nil_append, Nat.zero_add]

theorem elapsed_eq (w : Stopwatch) (now : Instant) :
    w.elapsed now = w.total + w.startedAt.elim 0 fun begun => now.nanos - begun.nanos := by
  rcases w with ⟨total, _ | begun⟩ <;> rfl

theorem toNat_elapsedMs (w : Stopwatch) (now : Instant) :
    (w.elapsedMs now).toNat = min (w.elapsed now / 1000000) 18446744073709551615 := by
  rw [elapsedMs, Instant.nanosPerMilli]
  rcases Nat.lt_or_ge (w.elapsed now / 1000000) UInt64.size with hlt | hge
  · rw [UInt64.toNat_ofNatClamp_of_lt hlt, Nat.min_eq_left (Nat.le_of_lt_succ hlt)]
  · rw [UInt64.toNat_ofNatClamp_of_le hge]
    exact (Nat.min_eq_right (Nat.le_trans (Nat.sub_le _ 1) hge)).symm

/-! ## Range -/

theorem elapsed_le_add (w : Stopwatch) (t u : Instant) : w.elapsed u ≤ w.elapsed t + (u.nanos - t.nanos) := by
  rcases w with ⟨total, _ | begun⟩
  · exact Nat.le_add_right _ _
  · simp only [elapsed, Instant.since]
    omega

/-- What a stopwatch shows is within the reading of the clock after a call if it was before. -/
theorem elapsed_act_le (h : w.elapsed u ≤ u.nanos) (hcall : ∀ v, call.instant? = some v → v = u) :
    (w.act call).elapsed u ≤ u.nanos := by
  cases call with
  | start now =>
    cases hcall now rfl
    rcases w with ⟨total, _ | begun⟩
    · simpa [act, start, elapsed, Instant.since] using h
    · exact h
  | pause now =>
    cases hcall now rfl
    rcases w with ⟨total, _ | begun⟩ <;> exact h
  | restart now =>
    cases hcall now rfl
    simp [act, restart, elapsed, Instant.since]
  | reset => exact Nat.zero_le _

theorem elapsed_foldl_le (hup : Instant.Ascending (t :: (calls.filterMap Call.instant? ++ [u])))
    (h : w.elapsed t ≤ t.nanos) : (calls.foldl act w).elapsed u ≤ u.nanos := by
  induction calls generalizing t w with
  | nil =>
    have hle : t.nanos ≤ u.nanos := (List.isChain_cons_cons.1 hup).1
    have := w.elapsed_le_add t u
    rw [List.foldl_nil]
    omega
  | cons call calls ih =>
    rw [List.foldl_cons]
    cases hcall : call.instant? with
    | none =>
      rw [List.filterMap_cons_none hcall] at hup
      exact ih hup (elapsed_act_le h (by simp [hcall]))
    | some v =>
      rw [List.filterMap_cons_some hcall] at hup
      obtain ⟨hle, hup⟩ := List.isChain_cons_cons.1 hup
      have := w.elapsed_le_add t v
      exact ih hup (elapsed_act_le (by omega) (by simp [hcall]))

/-- A stopwatch that is called at instants that do not go back never shows more than the clock does, so it is in the
range of every duration that holds the readings of the clock. -/
theorem elapsed_after_le (hup : Instant.Ascending (calls.filterMap Call.instant? ++ [u])) :
    (after calls).elapsed u ≤ u.nanos := by
  have hzero : Instant.Ascending (⟨0⟩ :: (calls.filterMap Call.instant? ++ [u])) :=
    List.isChain_cons.2 ⟨fun v _ => Nat.zero_le v.nanos, hup⟩
  exact elapsed_foldl_le hzero (Nat.le_refl 0)

/-! ## Readings -/

theorem elapsed_le (w : Stopwatch) (h : t.nanos ≤ u.nanos) : w.elapsed t ≤ w.elapsed u := by
  rcases w with ⟨total, _ | begun⟩
  · exact Nat.le_refl _
  · exact Nat.add_le_add_left (Nat.sub_le_sub_right h _) _

/-- A start or a pause changes nothing of what is shown at its instant. -/
theorem elapsed_act (w : Stopwatch) (h : call.zeroes = false) (ht : call.instant? = some t) :
    (w.act call).elapsed t = w.elapsed t := by
  cases call with
  | start now =>
    cases ht
    rcases w with ⟨total, _ | begun⟩
    · simp [act, start, elapsed, Instant.since]
    · rfl
  | pause now =>
    cases ht
    rcases w with ⟨total, _ | begun⟩ <;> rfl
  | reset | restart now => cases h

theorem elapsedMs_le {w' : Stopwatch} (h : w.elapsed t ≤ w'.elapsed u) : w.elapsedMs t ≤ w'.elapsedMs u := by
  rw [UInt64.le_iff_toNat_le, toNat_elapsedMs, toNat_elapsedMs]
  have := Nat.div_le_div_right (c := 1000000) h
  omega

/-- What is shown at the instants of further calls, each time before and behind the call. -/
def readings (w : Stopwatch) : List Call → List UInt64
  | [] => []
  | call :: calls =>
    (call.instant?.elim [] fun now => [w.elapsedMs now, (w.act call).elapsedMs now]) ++ readings (w.act call) calls

/-- Starts and pauses at instants that do not go back show no less each time than was shown before them. -/
theorem isChain_readings (h : ∀ call ∈ between, call.zeroes = false)
    (hup : Instant.Ascending (t :: between.filterMap Call.instant?)) (w : Stopwatch) :
    (w.elapsedMs t :: readings w between).IsChain (· ≤ ·) := by
  induction between generalizing t w with
  | nil => exact .singleton _
  | cons call between ih =>
    obtain ⟨hfirst, hrest⟩ := List.forall_mem_cons.1 h
    obtain ⟨now, hnow⟩ : ∃ now, call.instant? = some now := by
      cases call with
      | start now | pause now | restart now => exact ⟨now, rfl⟩
      | reset => cases hfirst
    rw [List.filterMap_cons_some hnow] at hup
    obtain ⟨hle, hup⟩ := List.isChain_cons_cons.1 hup
    rw [readings, hnow]
    refine .cons_cons (elapsedMs_le (w.elapsed_le hle)) (.cons_cons ?_ (ih hrest hup (w.act call)))
    exact elapsedMs_le (Nat.le_of_eq (w.elapsed_act hfirst hnow).symm)

/-- The account of a stopwatch. After any calls it shows at any instant the sum of the segments closed since the last
reset or restart, of which one that ends before its begin counts as nothing, and of the open one up to then; it runs
just if there is an open one. A start within a segment and a pause outside of one change nothing. The milliseconds
are that sum rounded down once, at most the largest count of 64 bits. Until the stopwatch is set back, what is shown at
the instants of the calls never goes down as long as these do not. -/
theorem running_time (calls : List Call) (now : Instant) :
    (after calls).elapsed now = ((segments (sinceZero calls)).map fun s => s.2.nanos - s.1.nanos).sum +
        ((openSince? (sinceZero calls)).elim 0 fun begun => now.nanos - begun.nanos) ∧
      (after calls).isRunning = (openSince? (sinceZero calls)).isSome ∧
      ((after calls).isRunning = true → ∀ t, after (calls ++ [.start t]) = after calls) ∧
      ((after calls).isRunning = false → ∀ t, after (calls ++ [.pause t]) = after calls) ∧
      ((after calls).elapsedMs now).toNat = min ((after calls).elapsed now / 1000000) 18446744073709551615 ∧
      ∀ between, (∀ call ∈ between, call.zeroes = false) → Instant.Ascending (between.filterMap Call.instant?) →
        (readings (after calls) between).IsChain (· ≤ ·) := by
  have hsnoc (call : Call) : after (calls ++ [call]) = (after calls).act call :=
    List.foldl_concat act {} call calls
  refine ⟨?_, ?_, fun hrunning t => ?_, fun hstill t => ?_, toNat_elapsedMs _ now, fun between hplain hup => ?_⟩
  · rw [elapsed_eq, after_eq, closedNanos]
  · rw [after_eq, isRunning]
  · obtain ⟨begun, hbegun⟩ := Option.isSome_iff_exists.1 hrunning
    rw [hsnoc, act, start, hbegun]
  · have hnone := Option.isSome_eq_false_iff.1 hstill
    rw [hsnoc, act, pause, Option.isNone_iff_eq_none.1 hnone]
  · -- no instant is before the first one of the clock
    have hzero : Instant.Ascending (⟨0⟩ :: between.filterMap Call.instant?) :=
      List.isChain_cons.2 ⟨fun t _ => Nat.zero_le t.nanos, hup⟩
    exact (isChain_readings hplain hzero (after calls)).tail

/-- A stopwatch that is started twice, paused twice, and once paused at an instant before its start. -/
def fidgeted : List Call :=
  [.start ⟨0⟩, .reset, .start ⟨1000000⟩, .start ⟨1300000⟩, .pause ⟨1600000⟩, .pause ⟨9000000⟩, .start ⟨20000000⟩,
    .pause ⟨20600000⟩, .start ⟨30000000⟩, .pause ⟨29000000⟩, .start ⟨40000000⟩]

/-- Three segments that are each shorter than a millisecond come to one together. -/
theorem running_time_fidgeted :
    ((after fidgeted).isRunning = true ∧ after (fidgeted ++ [.start ⟨41000000⟩]) = after fidgeted) ∧
      (after fidgeted).elapsed ⟨40500000⟩ = 600000 + 600000 + 0 + 500000 ∧
      ((after fidgeted).elapsedMs ⟨40500000⟩).toNat = 1 ∧
      (readings (after fidgeted) [.pause ⟨43000000⟩, .start ⟨44000000⟩]).IsChain (· ≤ ·) ∧
      (after (fidgeted ++ [.pause ⟨43000000⟩])).isRunning = false ∧
      after (fidgeted ++ [.pause ⟨43000000⟩] ++ [.pause ⟨50000000⟩]) = after (fidgeted ++ [.pause ⟨43000000⟩]) := by
  obtain ⟨hsum, -, hstart, -, hround, hreadings⟩ := running_time fidgeted ⟨40500000⟩
  obtain ⟨-, -, -, hpause, -⟩ := running_time (fidgeted ++ [.pause ⟨43000000⟩]) ⟨0⟩
  refine ⟨⟨rfl, hstart rfl _⟩, hsum, ?_, hreadings _ (by decide) ?_, rfl, hpause rfl _⟩
  · rw [hround, hsum]
    rfl
  · exact .cons_cons (by decide) (.singleton _)

end Stopwatch

end StepTimer
