/-
Names of timers. A requested name is trimmed; when it is taken, a number from two on is put behind
it, the first one that makes the name free. The numbers are counted in 32 bits, so the search has a
last one to try.
-/
import StepTimer.Text.Blank

namespace StepTimer.TimerName

def numbered (base : String) (n : Nat) : String := base ++ " " ++ n.repr

/-- The first numbered name from `n` on that is not taken, with so many numbers left to try. -/
def firstFree? (base : String) (taken : List String) : Nat → Nat → Option String
  | 0, _ => none
  | left + 1, n =>
    if numbered base n ∈ taken then firstFree? base taken left (n + 1) else some (numbered base n)

/-- The numbers from two on that a signed counter of 32 bits can step beyond. -/
def numbers : Nat := 0x7FFFFFFD

/-- The name to give for a requested one beside the existing names; none for a blank request, or when
the numbers run out. -/
def unique? (requested : String) (existing : List String) : Option String :=
  let base := Text.trim requested
  let taken := existing.map Text.trim
  if base = "" then none
  else if base ∈ taken then firstFree? base taken numbers 2
  else some base

end StepTimer.TimerName
