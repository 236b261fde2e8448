/-
Values of the data format: null, booleans, numbers, text, lists and records. A number is an integer
or a double, as it was written; the members of a record keep their order and may repeat a name.
-/
import StepTimer.Decimal.Double

namespace StepTimer

/-- A number as it was written: with a fraction or an exponent it is a double. -/
inductive Number where
  | int (value : Int)
  | double (value : Double)
deriving DecidableEq, Repr, Inhabited

namespace Number

def toDouble : Number → Double
  | int i => Double.ofInt i
  | double d => d

end Number

/-- A value of the data format. -/
inductive Json where
  | null
  | bool (value : Bool)
  | number (value : Number)
  | string (value : String)
  | array (items : List Json)
  | object (members : List (String × Json))
deriving Repr, Inhabited

namespace Json

def int (i : Int) : Json := .number (.int i)

def nat (n : Nat) : Json := .number (.int n)

/-- The value of a member of a record, if it has one of that name; the first of several. -/
def get? (j : Json) (name : String) : Option Json :=
  match j with
  | object members => members.lookup name
  | _ => none

/-- The value of an optional as its own, or null. -/
def ofOption {α : Type} (f : α → Json) : Option α → Json
  | none => null
  | some a => f a

/-- The members for an optional that is left out when it is absent. -/
def optionalMember {α : Type} (name : String) (f : α → Json) : Option α → List (String × Json)
  | none => []
  | some a => [(name, f a)]

end Json

end StepTimer
