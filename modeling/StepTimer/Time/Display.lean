/-
Durations as people read them. A remaining time is rounded up to whole seconds and shows hours and
minutes only from the first one on; an uptime is rounded down and pads nothing.
-/
namespace StepTimer

def twoPlaces (n : Nat) : String := if n < 10 then "0" ++ n.repr else n.repr

/-- The whole seconds of a time in milliseconds; one that has begun counts as a whole one. -/
def secondsUp (ms : UInt64) : UInt64 := if 0 < ms % 1000 then ms / 1000 + 1 else ms / 1000

/-- The text of a remaining time in milliseconds, such as `1h 02m 03s`. -/
def renderDuration (ms : UInt64) : String :=
  let total := secondsUp ms
  let hours := (total / 3600).toNat
  let minutes := (total % 3600 / 60).toNat
  let seconds := (total % 60).toNat
  if 0 < hours then hours.repr ++ "h " ++ twoPlaces minutes ++ "m " ++ twoPlaces seconds ++ "s"
  else if 0 < minutes then minutes.repr ++ "m " ++ twoPlaces seconds ++ "s"
  else seconds.repr ++ "s"

/-- The text of a time in whole seconds that has passed, such as `1h 2m 3s`. -/
def renderUptime (total : Nat) : String :=
  let hours := total / 3600
  let minutes := total % 3600 / 60
  let seconds := total % 60
  if 0 < hours then hours.repr ++ "h " ++ minutes.repr ++ "m " ++ seconds.repr ++ "s"
  else if 0 < minutes then minutes.repr ++ "m " ++ seconds.repr ++ "s"
  else seconds.repr ++ "s"

end StepTimer
