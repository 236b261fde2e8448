/-
How a double is written: positionally while the leading digit has an exponent from `-5` to `15`,
always with a point, and otherwise in scientific form with a signed exponent.
-/
import StepTimer.Decimal.Shortest

namespace StepTimer.Decimal

def digitText (n : Nat) : String := String.ofList (Nat.toDigits 10 n)

private def zeros (n : Nat) : String := String.ofList (List.replicate n '0')

/-- The text of a decimal with `digits` not ending in a zero. -/
def render (d : Decimal) : String :=
  let ds := Nat.toDigits 10 d.digits
  let lead : Int := d.exponent + ds.length - 1
  if d.digits = 0 then "0.0"
  else if -5 ≤ lead ∧ lead ≤ 15 then
    if 0 ≤ d.exponent then String.ofList ds ++ zeros d.exponent.toNat ++ ".0"
    else if 0 ≤ lead then
      String.ofList (ds.take (lead + 1).toNat) ++ "." ++ String.ofList (ds.drop (lead + 1).toNat)
    else "0." ++ zeros (-lead - 1).toNat ++ String.ofList ds
  else
    let fraction := if ds.length ≤ 1 then "" else "." ++ String.ofList (ds.drop 1)
    let sign := if lead < 0 then "-" else "+"
    String.ofList (ds.take 1) ++ fraction ++ "e" ++ sign ++ digitText lead.natAbs

end StepTimer.Decimal

namespace StepTimer.Double

/-- The text of a finite number: the shortest decimal that reads back, with the sign in front, also
of zero. -/
def render (x : Double) : String :=
  (if x.negative then "-" else "") ++ x.shortest.render

end StepTimer.Double
