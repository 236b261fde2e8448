/-
Reading values into records. A record is written with named members in any order, or as the list of
its fields in their fixed order; a member that is not known is skipped, a known one may not be
repeated. A list may end early only where the missing fields have a default of their own.
-/
import StepTimer.Json.Basic

namespace StepTimer.Json

/-! ## Plain values -/

def asString? : Json → Option String
  | string s => some s
  | _ => none

/-- The truth value of a value that is one. -/
def asBool? : Json → Option Bool
  | bool b => some b
  | _ => none

/-- The integer of a value that is one between two bounds. -/
def asInt? (low high : Int) : Json → Option Int
  | number (.int i) => if low ≤ i ∧ i ≤ high then some i else none
  | _ => none

def asUInt64? (j : Json) : Option UInt64 :=
  (j.asInt? 0 0xFFFFFFFFFFFFFFFF).map fun i => UInt64.ofNat i.toNat

def asInt64? (j : Json) : Option Int64 :=
  (j.asInt? (-0x8000000000000000) 0x7FFFFFFFFFFFFFFF).map Int64.ofInt

def asDouble? : Json → Option Double
  | number n => some n.toDouble
  | _ => none

def asList? : Json → Option (List Json)
  | array items => some items
  | _ => none

/-! ## Names -/

/-- How strictly a name is read. A name is a text, or a record whose one member has the name and
holds null; a lenient reader also takes an empty record for null. -/
inductive Strictness where
  | strict | lenient
deriving DecidableEq, Repr

/-- Whether a value may stand beside a name. -/
def isUnit (strictness : Strictness) : Json → Bool
  | null => true
  | object [] => strictness = .lenient
  | _ => false

def asName? (strictness : Strictness) : Json → Option String
  | string s => some s
  | object [(name, j)] => if j.isUnit strictness then some name else none
  | _ => none

def oneOf? {α : Type} (names : List (String × α)) (strictness : Strictness) (j : Json) : Option α := do
  names.lookup (← j.asName? strictness)

/-! ## Records -/

/-- What a written record says of one of its fields. -/
inductive Field where
  | given (j : Json)
  /-- Not among the named members. -/
  | missing
  /-- After the end of a list of fields. -/
  | cut
deriving Repr

/-- Whether a name occurs at most once among the members. -/
def occursOnce (members : List (String × Json)) (name : String) : Bool :=
  (members.filter fun m => m.1 = name).length ≤ 1

def memberField (members : List (String × Json)) (name : String) : Field :=
  match members.lookup name with
  | some j => .given j
  | none => .missing

/-- The fields of a list, one for each name. -/
def positionFields : List String → List Json → List Field
  | [], _ => []
  | _ :: names, [] => .cut :: positionFields names []
  | _ :: names, j :: js => .given j :: positionFields names js

/-- The known fields among named members, in their fixed order. -/
def namedFields? (names : List String) (members : List (String × Json)) : Option (List Field) :=
  if names.all (occursOnce members) then some (names.map (memberField members)) else none

/-- The fields of a list that is not longer than their number. -/
def listedFields? (names : List String) (items : List Json) : Option (List Field) :=
  if items.length ≤ names.length then some (positionFields names items) else none

/-- The known fields of a record, in their fixed order. -/
def fields? (names : List String) : Json → Option (List Field)
  | object members => namedFields? names members
  | array items => listedFields? names items
  | _ => none

namespace Field

def required {α : Type} (read : Json → Option α) : Field → Option α
  | given j => read j
  | missing => none
  | cut => none

/-- A field with a default; null is no value of it. -/
def orDefault {α : Type} (default : α) (read : Json → Option α) : Field → Option α
  | given j => read j
  | missing => some default
  | cut => some default

/-- A field that may be null or left out, in a list also at its end. -/
def optional {α : Type} (read : Json → Option α) : Field → Option (Option α)
  | given .null => some none
  | given j => (read j).map some
  | missing => some none
  | cut => some none

/-- A field that may be null or left out, but has its place in a list. -/
def nullable {α : Type} (read : Json → Option α) : Field → Option (Option α)
  | given .null => some none
  | given j => (read j).map some
  | missing => some none
  | cut => none

end Field

def listOf? {α : Type} (read : Json → Option α) (j : Json) : Option (List α) := do
  (← j.asList?).mapM read

end StepTimer.Json
