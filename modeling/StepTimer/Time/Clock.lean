/-
Times on a 12-hour clock: the written form `H:MM`, and the time left until a clock next shows one.
A text is read in three steps: it is split at its first colon, the parts are checked byte by byte,
and what is left is read as numbers, of which the hour is at most twelve and the minute at most 59.
-/
import StepTimer.Time.Instant

namespace StepTimer

/-- The half of the day of a time on a 12-hour clock. -/
inductive Meridiem where
  | am | pm
deriving DecidableEq, Repr, Inhabited

/-- A time as written on a 12-hour clock. -/
structure ClockTime where
  hour : Nat
  minute : Nat
deriving DecidableEq, Repr

namespace ClockTime

/-- What stands before and behind the first colon of a text. -/
def splitAtColon? (cs : List Char) : Option (List Char × List Char) :=
  match cs.span (· ≠ ':') with
  | (_, []) => none
  | (before, _ :: behind) => some (before, behind)

/-- The bytes of a text. -/
def bytes (cs : List Char) : List UInt8 := cs.flatMap String.utf8EncodeChar

/-- Whether a byte is the one of a decimal digit. -/
def isDigitByte (b : UInt8) : Bool := 0x30 ≤ b && b ≤ 0x39

/-- Reads a 32-bit number: decimal digits, which may stand behind a plus sign. -/
def number? (cs : List Char) : Option Nat :=
  let digits := if cs.head? = some '+' then cs.tail else cs
  if digits.isEmpty || !digits.all Char.isDigit then none
  else (some (Nat.ofDigitChars 10 digits 0)).filter (· < UInt32.size)

/-- Reads `H:MM`; the hour may be anything from 0 to 12. -/
def parse? (text : String) : Option ClockTime := do
  let (hour, minute) ← splitAtColon? text.toList
  if (bytes hour).isEmpty ∨ 2 < (bytes hour).length ∨ (bytes minute).length ≠ 2 then none
  else if !(bytes hour).all isDigitByte ∨ !(bytes minute).all isDigitByte then none
  else
    let hour ← number? hour
    let minute ← number? minute
    if 12 < hour ∨ 59 < minute then none else some ⟨hour, minute⟩

/-- Noon or midnight, the time meant by a text that cannot be read. -/
def twelve : ClockTime := ⟨12, 0⟩

/-- The hour of the day, in the given half of it. Twelve and zero are the first hour of a half. -/
def hourOfDay (t : ClockTime) : Meridiem → Nat
  | .am => t.hour % 12
  | .pm => t.hour % 12 + 12

/-- The milliseconds from a reading of the wall clock until it next shows the time, at least one
and at most a day: a time that has been reached today means tomorrow's. -/
def millisUntil (t : ClockTime) (half : Meridiem) (now : WallTime) : Nat :=
  match now.sameDay? (t.hourOfDay half) t.minute 0 with
  | none => WallTime.dayMillis
  | some today =>
    let target := if today.millis ≤ now.millis then today.plusMillis WallTime.dayMillis else today
    (max 1 (min (target.millis - now.millis) WallTime.dayMillis)).toNat

end ClockTime

/-- Keeps a text that writes a time with an hour from 1 to 12, and otherwise gives the fallback. -/
def sanitizeTime (text fallback : String) : String :=
  match ClockTime.parse? text with
  | some t => if 1 ≤ t.hour ∧ t.hour ≤ 12 then text else fallback
  | none => fallback

/-- The milliseconds from a reading of the wall clock until it next shows the written time. -/
def millisUntilClock (text : String) (half : Meridiem) (now : WallTime) : Nat :=
  ((ClockTime.parse? text).getD .twelve).millisUntil half now

end StepTimer
