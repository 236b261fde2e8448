/-
Double-precision numbers, kept as their 64 bits. A finite number is `± significand * 2 ^ scale`;
every operation computes the exact result in the naturals and rounds it once, to the nearest
double and on a tie to the one with an even significand.
-/
namespace StepTimer

def pow2 (n : Nat) : Nat := Nat.pow 2 n

def pow10 (n : Nat) : Nat := Nat.pow 10 n

/-- A double-precision number, given by its bits: sign, eleven exponent bits, 52 fraction bits. -/
structure Double where
  bits : UInt64
deriving DecidableEq, Repr, Inhabited

/-- The quotient rounded to the nearest natural, a tie going to the even one. -/
def roundQuotient (num den : Nat) : Nat :=
  let q := num / den
  match compare (2 * (num % den)) den with
  | .lt => q
  | .gt => q + 1
  | .eq => if q % 2 = 0 then q else q + 1

namespace Double

def negative (x : Double) : Bool := x.bits.toNat / pow2 63 % 2 = 1

def exponentField (x : Double) : Nat := x.bits.toNat / pow2 52 % 2048

def fractionField (x : Double) : Nat := x.bits.toNat % pow2 52

/-- Neither infinite nor a NaN. -/
def isFinite (x : Double) : Bool := x.exponentField < 2047

/-- The natural `m` of a finite number `± m * 2 ^ q`. -/
def significand (x : Double) : Nat :=
  if x.exponentField = 0 then x.fractionField else pow2 52 + x.fractionField

/-- The integer `q` of a finite number `± m * 2 ^ q`. -/
def scale (x : Double) : Int :=
  if x.exponentField = 0 then -1074 else (x.exponentField : Int) - 1075

def ofFields (negative : Bool) (exponent fraction : Nat) : Double :=
  ⟨UInt64.ofNat ((if negative then pow2 63 else 0) + exponent * pow2 52 + fraction)⟩

def zero : Double := ofFields false 0 0

def infinity (negative : Bool) : Double := ofFields negative 2047 0

/-- A quiet NaN. -/
def nan : Double := ofFields false 2047 (pow2 51)

/-- The number `± m * 2 ^ q` for a significand of at most 53 bits (or `2 ^ 53` itself) that is
normal for `q`; infinite when the exponent is beyond the range. -/
def ofSignificand (negative : Bool) (m : Nat) (q : Int) : Double :=
  if m = pow2 53 then
    if 971 ≤ q then infinity negative else ofFields negative (q + 1076).toNat 0
  else if m < pow2 52 then ofFields negative 0 m
  else if 971 < q then infinity negative
  else ofFields negative (q + 1075).toNat (m - pow2 52)

/-- The double nearest to `± num / den`. -/
def ofRatio (negative : Bool) (num den : Nat) : Double :=
  if num = 0 then ofFields negative 0 0
  else
    let guess : Int := (num.log2 : Int) - den.log2
    let exponent := if den * pow2 guess.toNat ≤ num * pow2 (-guess).toNat then guess else guess - 1
    let q := max (exponent - 52) (-1074)
    ofSignificand negative (roundQuotient (num * pow2 (-q).toNat) (den * pow2 q.toNat)) q

def ofNat (n : Nat) : Double := ofRatio false n 1

def ofInt (i : Int) : Double := ofRatio (i < 0) i.natAbs 1

def mul (x y : Double) : Double :=
  let q := x.scale + y.scale
  ofRatio (x.negative != y.negative) (x.significand * y.significand * pow2 q.toNat) (pow2 (-q).toNat)

/-- The quotient of two finite numbers, the second not zero. -/
def div (x y : Double) : Double :=
  let q := x.scale - y.scale
  ofRatio (x.negative != y.negative) (x.significand * pow2 q.toNat) (y.significand * pow2 (-q).toNat)

/-- The size of a finite number rounded to a natural, a half going up. -/
def roundAbs (x : Double) : Nat :=
  if 0 ≤ x.scale then x.significand * pow2 x.scale.toNat
  else (2 * x.significand + pow2 (-x.scale).toNat) / (2 * pow2 (-x.scale).toNat)

end Double

end StepTimer
