/-
The shortest decimal that reads back to a given double: the fewest digits inside the interval of
reals that round to the number, of two such decimals the nearer one, and on an exact tie the one
with an even last digit.
-/
import StepTimer.Decimal.Double

namespace StepTimer

/-- The decimal `digits * 10 ^ exponent`. -/
structure Decimal where
  digits : Nat
  exponent : Int
deriving DecidableEq, Repr

namespace Decimal

/-- Moves the trailing zeros of the digits into the exponent; at most `fuel` of them. -/
def stripZeros : Nat → Decimal → Decimal
  | 0, d => d
  | fuel + 1, d =>
    if d.digits ≠ 0 ∧ d.digits % 10 = 0 then stripZeros fuel ⟨d.digits / 10, d.exponent + 1⟩ else d

end Decimal

namespace Double

/-- The number in units of a quarter of its last place, `4 * significand`, with the ends of the
interval of reals that round to it in the same units. -/
structure Rounding where
  low : Nat
  mid : Nat
  high : Nat
  /-- The ends themselves round to the number. -/
  closed : Bool
  /-- The unit is `2 ^ unit`. -/
  unit : Int

/-- The rounding interval of a finite number other than zero. The gap below a power of two is half
the gap above it. -/
def rounding (x : Double) : Rounding :=
  let m := x.significand
  let narrow := x.fractionField = 0 ∧ 1 < x.exponentField
  ⟨4 * m - (if narrow then 1 else 2), 4 * m, 4 * m + 2, m % 2 = 0, x.scale - 2⟩

/-- The factors `(a, b)` with which `c * 10 ^ g` compares to `n * 2 ^ unit` as `c * a` to `n * b`. -/
def Rounding.factors (r : Rounding) (g : Int) : Nat × Nat :=
  (pow10 g.toNat * pow2 (-r.unit).toNat, pow2 r.unit.toNat * pow10 (-g).toNat)

/-- Whether `c * 10 ^ g` rounds to the number. -/
def Rounding.contains (r : Rounding) (g : Int) (c : Nat) : Bool :=
  let (a, b) := r.factors g
  if r.closed then r.low * b ≤ c * a && c * a ≤ r.high * b
  else r.low * b < c * a && c * a < r.high * b

/-- The best decimal on the grid of the multiples of `10 ^ g`, if one rounds to the number. Only the
two neighbours of the number on the grid have to be tried. -/
def Rounding.onGrid (r : Rounding) (g : Int) : Option Decimal :=
  let (a, b) := r.factors g
  let c := r.mid * b / a
  match r.contains g c, r.contains g (c + 1) with
  | false, false => none
  | true, false => some ⟨c, g⟩
  | false, true => some ⟨c + 1, g⟩
  | true, true =>
    match compare (2 * (r.mid * b)) ((2 * c + 1) * a) with
    | .lt => some ⟨c, g⟩
    | .gt => some ⟨c + 1, g⟩
    | .eq => some ⟨if c % 2 = 0 then c else c + 1, g⟩

/-- The least `k` with the number below `10 ^ k`, found near the estimate from the binary logarithm. -/
def Rounding.magnitude (r : Rounding) : Int :=
  let guess := Int.fdiv ((r.unit + r.mid.log2) * 1233) 4096 - 1
  let below (k : Int) : Bool :=
    let (a, b) := r.factors k
    r.mid * b < a
  ([guess, guess + 1, guess + 2, guess + 3].find? below).getD (guess + 4)

/-- The shortest decimal that reads back to the size of a finite number. Seventeen digits always
suffice. -/
def shortest (x : Double) : Decimal :=
  if x.significand = 0 then ⟨0, 0⟩
  else
    let r := x.rounding
    let k := r.magnitude
    let hit := (List.range 17).findSome? fun n => r.onGrid (k - (n + 1 : Nat))
    (hit.getD ⟨r.mid, r.unit⟩).stripZeros 20

end Double

end StepTimer
