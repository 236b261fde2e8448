/-
Relative durations: an amount of a unit, turned into whole milliseconds.
-/
import StepTimer.Decimal.Double

namespace StepTimer

/-- The unit of a relative wait. -/
inductive DurationUnit where
  | seconds | minutes | hours | days
deriving DecidableEq, Repr, Inhabited

namespace DurationUnit

/-- The milliseconds in one unit. -/
def millis : DurationUnit → Nat
  | seconds => 1000
  | minutes => 60000
  | hours => 3600000
  | days => 86400000

/-- The milliseconds of an amount of the unit: the double product, rounded to the nearest integer
with a half going up, and at most the largest 64-bit count. Amounts that are negative or not
finite count as zero. -/
def durationMillis (unit : DurationUnit) (amount : Double) : UInt64 :=
  if !amount.isFinite || amount.negative then 0
  else
    let product := amount.mul (Double.ofNat unit.millis)
    UInt64.ofNatClamp (if product.isFinite then product.roundAbs else UInt64.size)

end DurationUnit

end StepTimer
