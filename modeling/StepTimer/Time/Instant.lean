/-
Readings of the two clocks. Run time is measured on a monotonic clock that counts nanoseconds;
the time of day comes from a wall clock that counts milliseconds since the start of 1970.
-/
namespace StepTimer

/-- A reading of the monotonic clock, in nanoseconds since the clock began. -/
structure Instant where
  nanos : Nat
deriving DecidableEq, Repr, Inhabited

namespace Instant

def nanosPerMilli : Nat := 1000000

/-- The instant a number of milliseconds after the clock began. -/
def ofMillis (ms : Nat) : Instant := ⟨ms * nanosPerMilli⟩

def plusMillis (t : Instant) (ms : Nat) : Instant := ⟨t.nanos + ms * nanosPerMilli⟩

/-- The nanoseconds from `earlier` to `later`, zero when they are not in that order. -/
def since (later earlier : Instant) : Nat := later.nanos - earlier.nanos

/-- The whole milliseconds from `earlier` to `later`, rounded down. -/
def millisSince (later earlier : Instant) : Nat := later.since earlier / nanosPerMilli

/-- The whole milliseconds since the clock began. -/
def millis (t : Instant) : Nat := t.nanos / nanosPerMilli

theorem millisSince_plusMillis (t : Instant) (ms : Nat) : (t.plusMillis ms).millisSince t = ms := by
  simp [millisSince, since, plusMillis, nanosPerMilli]

end Instant

/-- A reading of the wall clock, in milliseconds since midnight of 1 January 1970. -/
structure WallTime where
  millis : Int
deriving DecidableEq, Repr, Inhabited

namespace WallTime

def dayMillis : Nat := 86400000

/-- The milliseconds since the last midnight. -/
def timeOfDay (t : WallTime) : Nat := (t.millis % dayMillis).toNat

def plusMillis (t : WallTime) (ms : Nat) : WallTime := ⟨t.millis + ms⟩

/-- The moment of the same day at which a clock shows a time; none when no clock shows it. -/
def sameDay? (t : WallTime) (hour minute second : Nat) : Option WallTime :=
  if hour < 24 ∧ minute < 60 ∧ second < 60 then
    some ⟨t.millis - t.timeOfDay + (hour * 3600000 + minute * 60000 + second * 1000 : Nat)⟩
  else none

theorem timeOfDay_lt (t : WallTime) : t.timeOfDay < dayMillis := by
  unfold timeOfDay dayMillis; omega

end WallTime

end StepTimer
