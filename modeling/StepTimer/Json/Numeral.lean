/-
Written numbers. A numeral is split into its sign, its digits before and after the point and its
exponent; the value of one without point and exponent is an integer when it fits 64 bits. Any
other value is a double: the digits are kept as a 64-bit natural for as long as they fit, and the
power of ten is applied to it in one step of double arithmetic.
-/
import StepTimer.Json.Basic

namespace StepTimer.Json

/-- A number as written, in its parts. -/
structure Numeral where
  negative : Bool
  whole : List Nat
  /-- The digits after the point, none when there is no point. -/
  fraction : List Nat
  /-- Whether the exponent is negative, and its digits. -/
  exponent : Option (Bool × List Nat)
deriving DecidableEq, Repr

namespace Numeral

/-- A significand of at most 64 bits with a power of ten. -/
structure Scaled where
  significand : Nat
  power : Int
deriving DecidableEq, Repr

def significandMax : Nat := 0xFFFFFFFFFFFFFFFF

/-- The digits before the point: as many as fit make the significand, each one left over adds one
to the power. -/
def ofWhole (digits : List Nat) : Scaled :=
  digits.foldl (fun s d =>
    if s.power = 0 ∧ s.significand * 10 + d ≤ significandMax then ⟨s.significand * 10 + d, 0⟩
    else ⟨s.significand, s.power + 1⟩) ⟨0, 0⟩

/-- The digits after the point extend the significand until the first one that does not fit. -/
def withFraction (s : Scaled) : List Nat → Scaled
  | [] => s
  | d :: ds =>
    if s.significand * 10 + d ≤ significandMax then
      withFraction ⟨s.significand * 10 + d, s.power - 1⟩ ds
    else s

/-- The value of a list of digits. -/
def digitsValue (digits : List Nat) : Nat := digits.foldl (fun n d => n * 10 + d) 0

def powerMin : Int := -0x80000000

def powerMax : Int := 0x7FFFFFFF

/-- Applies a power of ten by double arithmetic: one product or quotient for a power of at most 308
digits; a lower power is reached in several quotients. None when the value is out of range. -/
def scale : Nat → Double → Int → Option Double
  | 0, x, _ => some x
  | fuel + 1, x, power =>
    if power.natAbs ≤ 308 then
      let factor := Double.ofNat (pow10 power.natAbs)
      if 0 ≤ power then
        let y := x.mul factor
        if y.isFinite then some y else none
      else some (x.div factor)
    else if x.significand = 0 then some x
    else if 0 ≤ power then none
    else scale fuel (x.div (Double.ofNat (pow10 308))) (power + 308)

/-- The double for a sign, a significand and a power of ten. -/
def signed (negative : Bool) (x : Double) : Double :=
  if negative then .ofFields true x.exponentField x.fractionField else x

/-- The double of a numeral that has a point, an exponent, or too many digits. -/
def toDouble (n : Numeral) : Option Double :=
  let s := withFraction (ofWhole n.whole) n.fraction
  match n.exponent with
  | none => (scale 5 (.ofNat s.significand) s.power).map (signed n.negative)
  | some (down, digits) =>
    let e := digitsValue digits
    if (e : Int) ≤ powerMax then
      let power := max powerMin (min powerMax (if down then s.power - e else s.power + e))
      (scale 5 (.ofNat s.significand) power).map (signed n.negative)
    else if s.significand ≠ 0 ∧ !down then none
    else some (signed n.negative .zero)

/-- The value of a numeral; none when it is too large for a double. A negative zero is a double. -/
def value (n : Numeral) : Option Number :=
  let s := ofWhole n.whole
  if n.fraction.isEmpty && n.exponent.isNone && s.power = 0 then
    if !n.negative then some (.int s.significand)
    else if 0 < s.significand ∧ s.significand ≤ 0x8000000000000000 then some (.int (-s.significand))
    else some (.double (signed true (.ofNat s.significand)))
  else n.toDouble.map .double

def spanDigits (cs : List Char) : List Nat × List Char :=
  ((cs.takeWhile Char.isDigit).map fun c => c.toNat - '0'.toNat, cs.dropWhile Char.isDigit)

/-- Reads a point and at least one digit after it, if a point comes next. None for a point alone. -/
def scanFraction : List Char → Option (List Nat × List Char)
  | '.' :: cs =>
    match spanDigits cs with
    | ([], _) => none
    | (digits, rest) => some (digits, rest)
  | cs => some ([], cs)

def scanSign : List Char → Bool × List Char
  | '+' :: cs => (false, cs)
  | '-' :: cs => (true, cs)
  | cs => (false, cs)

/-- Reads an exponent with at least one digit, if one comes next. -/
def scanExponent : List Char → Option (Option (Bool × List Nat) × List Char)
  | c :: cs =>
    if c = 'e' ∨ c = 'E' then
      let (down, cs) := scanSign cs
      match spanDigits cs with
      | ([], _) => none
      | (digits, rest) => some (some (down, digits), rest)
    else some (none, c :: cs)
  | [] => some (none, [])

/-- Reads a numeral without its sign. A leading zero stands alone. -/
def scanUnsigned (negative : Bool) (cs : List Char) : Option (Numeral × List Char) := do
  let (whole, rest) := spanDigits cs
  if whole.isEmpty then none
  else if whole.head? = some 0 ∧ whole.length ≠ 1 then none
  else
    let (fraction, rest) ← scanFraction rest
    let (exponent, rest) ← scanExponent rest
    some (⟨negative, whole, fraction, exponent⟩, rest)

/-- Reads a numeral from the front of a text. -/
def scan : List Char → Option (Numeral × List Char)
  | '-' :: cs => scanUnsigned true cs
  | cs => scanUnsigned false cs

end Numeral

end StepTimer.Json
