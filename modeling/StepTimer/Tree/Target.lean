/-
Where a step is dropped: at the start or the end of the whole list, or next to or inside another
step.
-/
import StepTimer.Step.Basic
import StepTimer.Json.Read

namespace StepTimer

/-- A place relative to a step. -/
inductive Position where
  | before | after
  /-- At the end of the children. -/
  | inside
deriving DecidableEq, Repr

/-- A place in a tree of steps. -/
inductive DropTarget where
  | rootStart | rootEnd
  | relative (target : StepId) (position : Position)
deriving DecidableEq, Repr

/-! ## As values of the data format -/

def Position.names : List (String × Position) :=
  [("before", .before), ("after", .after), ("inside", .inside)]

def Position.name : Position → String
  | before => "before"
  | after => "after"
  | inside => "inside"

theorem Position.lookup_name (p : Position) : names.lookup p.name = some p := by
  cases p <;> decide

namespace DropTarget

/-- The forms of a drop target. -/
inductive Tag where
  | rootStart | rootEnd | relative
deriving DecidableEq, Repr

def tagNames : List (String × Tag) :=
  [("rootStart", .rootStart), ("rootEnd", .rootEnd), ("relative", .relative)]

def toJson : DropTarget → Json
  | rootStart => .object [("kind", .string "rootStart")]
  | rootEnd => .object [("kind", .string "rootEnd")]
  | relative target position =>
    .object [("kind", .string "relative"), ("target", .string target),
      ("position", .string position.name)]

/-- The names of the fields of a form. -/
def Tag.fieldNames : Tag → List String
  | rootStart => []
  | rootEnd => []
  | relative => ["target", "position"]

/-- A drop target from its form and what is said of its fields. -/
def ofFields? : Tag → List Json.Field → Option DropTarget
  | .rootStart, _ => some rootStart
  | .rootEnd, _ => some rootEnd
  | .relative, [target, position] => do
    let target ← target.required Json.asString?
    let position ← position.required (Json.oneOf? Position.names .lenient)
    return relative target position
  | .relative, _ => none

/-- Reads a drop target: a record with its form, or a list of the form and the fields. -/
def ofJson? : Json → Option DropTarget
  | .object members => do
    match ← Json.namedFields? ["kind"] members with
    | [tag] =>
      let tag ← tagNames.lookup (← tag.required Json.asString?)
      ofFields? tag (← Json.namedFields? tag.fieldNames members)
    | _ => none
  | .array (.string name :: items) => do
    let tag ← tagNames.lookup name
    ofFields? tag (← Json.listedFields? tag.fieldNames items)
  | _ => none

end DropTarget

end StepTimer
