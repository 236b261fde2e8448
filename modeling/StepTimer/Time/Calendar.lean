/-
The civil calendar over the wall clock: a date and time of day for a count of milliseconds, the
count for a date, and the text of a moment in universal time. The calendar repeats every 400
years, an era of 146097 days counted from 1 March of year 0.
-/
import StepTimer.Time.Instant

namespace StepTimer

/-- A day of the civil calendar; `month` and `day` count from one. -/
structure CivilDate where
  year : Int
  month : Nat
  day : Nat
deriving DecidableEq, Repr

namespace CivilDate

/-- The days from 1 January 1970 to the date. -/
def daysSinceEpoch (d : CivilDate) : Int :=
  let y : Int := if d.month ≤ 2 then d.year - 1 else d.year
  let era := y / 400
  let yearOfEra := (y % 400).toNat
  let marchMonth := (d.month + 9) % 12
  let dayOfYear := (153 * marchMonth + 2) / 5 + d.day - 1
  let dayOfEra := yearOfEra * 365 + yearOfEra / 4 - yearOfEra / 100 + dayOfYear
  era * 146097 + dayOfEra - 719468

/-- The date a number of days after 1 January 1970. -/
def ofDaysSinceEpoch (days : Int) : CivilDate :=
  let z := days + 719468
  let era := z / 146097
  let dayOfEra := (z % 146097).toNat
  let yearOfEra := (dayOfEra - dayOfEra / 1460 + dayOfEra / 36524 - dayOfEra / 146096) / 365
  let dayOfYear := dayOfEra - (365 * yearOfEra + yearOfEra / 4 - yearOfEra / 100)
  let marchMonth := (5 * dayOfYear + 2) / 153
  let day := dayOfYear - (153 * marchMonth + 2) / 5 + 1
  let month := if marchMonth < 10 then marchMonth + 3 else marchMonth - 9
  let year : Int := yearOfEra + era * 400
  ⟨if month ≤ 2 then year + 1 else year, month, day⟩

end CivilDate

namespace WallTime

/-- The moment of a date and a time of day. -/
def ofCivil (date : CivilDate) (hour minute second ms : Nat) : WallTime :=
  ⟨date.daysSinceEpoch * dayMillis + (hour * 3600000 + minute * 60000 + second * 1000 + ms : Nat)⟩

def date (t : WallTime) : CivilDate := .ofDaysSinceEpoch (t.millis / dayMillis)

/-- A natural written with at least `width` digits. -/
def padded (width n : Nat) : String :=
  let digits := n.repr
  String.ofList (List.replicate (width - digits.length) '0') ++ digits

/-- The text of a moment: date, `T`, time of day, the milliseconds only when they are not zero, and
`Z`. Years outside 0 to 9999 carry a sign. -/
def render (t : WallTime) : String :=
  let d := t.date
  let ms := t.timeOfDay
  let year :=
    if d.year < 0 then "-" ++ padded 4 d.year.natAbs
    else if 9999 < d.year then "+" ++ padded 4 d.year.natAbs
    else padded 4 d.year.natAbs
  let clock := padded 2 (ms / 3600000) ++ ":" ++ padded 2 (ms / 60000 % 60) ++ ":"
    ++ padded 2 (ms / 1000 % 60)
  let fraction := if ms % 1000 = 0 then "" else "." ++ padded 3 (ms % 1000)
  year ++ "-" ++ padded 2 d.month ++ "-" ++ padded 2 d.day ++ "T" ++ clock ++ fraction ++ "Z"

end WallTime

end StepTimer
