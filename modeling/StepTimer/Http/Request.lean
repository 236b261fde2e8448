/-
The bodies of requests. A body is read in the order of its text, and the first fault decides: text
that is malformed is told apart from well-formed text that does not fit. Faults of the text found
later, also in members nobody asks for, still count.
-/
import StepTimer.Timer.Codec
import StepTimer.Tree.Target

namespace StepTimer.Http

open Json (Draft)

/-- Why a body is rejected. -/
inductive Fault where
  /-- The text is not well formed. -/
  | malformed
  /-- The value is not the one asked for. -/
  | unfit
deriving DecidableEq, Repr

abbrev Reader (α : Type) := Draft → Except Fault α

/-- The fault of a value that is not the one asked for: what cannot be read at all is malformed. -/
def faultOf : Draft → Fault
  | .broken => .malformed
  | .unreadable => .malformed
  | _ => .unfit

/-! ## Values -/

def readString : Reader String
  | .string s => .ok s
  | d => .error (faultOf d)

def readBool : Reader Bool
  | .bool b => .ok b
  | d => .error (faultOf d)

def readOption {α : Type} (read : Reader α) : Reader (Option α)
  | .null => .ok none
  | d => (read d).map some

/-- Reads one of a fixed set of names: a text, or a record of one member that holds null. Where a
name is asked for, any other value counts as malformed. -/
def readName {α : Type} (names : List (String × α)) : Reader α
  | .string s => (names.lookup s).elim (.error .unfit) .ok
  | .object ((some name, value) :: rest) closed =>
    match names.lookup name, value with
    | none, _ => .error .unfit
    | some a, .null => if rest.isEmpty && closed then .ok a else .error .malformed
    | some _, d => .error (faultOf d)
  | _ => .error .malformed

/-! ## Tagged values -/

def readTag (isKnown : String → Bool) (d : Draft) : Except Fault String := do
  let name ← readString d
  if isKnown name then .ok name else .error .unfit

/-- Reads a value of which no part may be unreadable. -/
def readAny (d : Draft) : Except Fault Json := d.settle.elim (.error .malformed) .ok

/-- Reads the members of a tagged record; the tag may not be repeated. -/
def readTaggedMembers (tag : String) (isKnown : String → Bool) (seen : Bool) :
    List (Option String × Draft) → Except Fault (List (String × Json) × Bool)
  | [] => .ok ([], seen)
  | (none, _) :: _ => .error .malformed
  | (some name, d) :: rest =>
    if name = tag then
      if seen then .error .unfit
      else do
        let value ← readTag isKnown d
        let (members, _) ← readTaggedMembers tag isKnown true rest
        return ((name, .string value) :: members, true)
    else do
      let value ← readAny d
      let (members, seen) ← readTaggedMembers tag isKnown seen rest
      return ((name, value) :: members, seen)

/-- Reads a tagged value: a record with the tag among its members, or a list that the tag leads. -/
def readTagged (tag : String) (isKnown : String → Bool) : Reader Json
  | .object members closed => do
    let (members, seen) ← readTaggedMembers tag isKnown false members
    if !closed then .error .malformed
    else if !seen then .error .unfit
    else .ok (.object members)
  | .array items closed => do
    match items with
    | [] => .error (if closed then .unfit else .malformed)
    | d :: rest =>
      let name ← readTag isKnown d
      let rest ← rest.mapM readAny
      if closed then .ok (.array (.string name :: rest)) else .error .malformed
  | d => .error (faultOf d)

def readKind (d : Draft) : Except Fault StepKind := do
  let j ← readTagged "type" (fun _ => true) d
  (StepKind.ofJson? j).elim (.error .unfit) .ok

def readTarget (d : Draft) : Except Fault DropTarget := do
  let j ← readTagged "kind" (fun name => (DropTarget.tagNames.lookup name).isSome) d
  (DropTarget.ofJson? j).elim (.error .unfit) .ok

/-! ## Records -/

/-- A field of a record under construction. -/
structure FieldReader (σ : Type) where
  name : String
  isSet : σ → Bool
  read : Draft → σ → Except Fault σ

/-- How a record was written. -/
inductive Form where
  | named | listed
deriving DecidableEq, Repr

/-- Reads named members into a record: known ones may not be repeated, others are skipped. -/
def readMembers {σ : Type} (fields : List (FieldReader σ)) :
    List (Option String × Draft) → σ → Except Fault σ
  | [], s => .ok s
  | (none, _) :: _, _ => .error .malformed
  | (some name, d) :: rest, s =>
    match fields.find? fun f => f.name = name with
    | some f =>
      if f.isSet s then .error .unfit
      else do
        let s ← f.read d s
        readMembers fields rest s
    | none => if d.isCut then .error .malformed else readMembers fields rest s

/-- Reads a list of fields into a record; a list that is too long is malformed. -/
def readPositions {σ : Type} : List (FieldReader σ) → List Draft → σ → Except Fault σ
  | _, [], s => .ok s
  | [], _ :: _, _ => .error .malformed
  | f :: fields, d :: rest, s => do
    let s ← f.read d s
    readPositions fields rest s

/-- Reads a record, and how it was written. -/
def readRecord {σ : Type} (fields : List (FieldReader σ)) (start : σ) : Reader (σ × Form)
  | .object members closed => do
    let s ← readMembers fields members start
    if closed then .ok (s, .named) else .error .malformed
  | .array items closed => do
    let s ← readPositions fields items start
    if closed then .ok (s, .listed) else .error .malformed
  | d => .error (faultOf d)

/-- The field that was not given, where it may be left out of named members only. -/
def absent {α : Type} : Form → Except Fault (Option α)
  | .named => .ok none
  | .listed => .error .unfit

def firstField {α β : Type} (name : String) (read : Reader α) :
    FieldReader (Option α × Option β) :=
  ⟨name, fun s => s.1.isSome, fun d s => (read d).map fun a => (some a, s.2)⟩

def secondField {α β : Type} (name : String) (read : Reader β) :
    FieldReader (Option α × Option β) :=
  ⟨name, fun s => s.2.isSome, fun d s => (read d).map fun b => (s.1, some b)⟩

def onlyField {α : Type} (name : String) (read : Reader α) : FieldReader (Option α) :=
  ⟨name, Option.isSome, fun d _ => (read d).map some⟩

/-! ## Requests -/

/-- The request for a new timer. -/
structure CreateTimer where
  name : String
  mode : TimerMode
deriving DecidableEq, Repr

/-- Reads a request for a new timer. Without a mode it is a sequence. -/
def CreateTimer.read (d : Draft) : Except Fault CreateTimer := do
  let fields := [firstField "name" readString, secondField "mode" (readName TimerMode.names)]
  let ((name, mode), _) ← readRecord fields (none, none) d
  match name with
  | some name => .ok ⟨name, mode.getD .sequence⟩
  | none => .error .unfit

/-- The request to rename or lock a timer. -/
structure UpdateTimer where
  name : Option String
  locked : Option Bool
deriving DecidableEq, Repr

/-- Reads a request to rename or lock a timer. -/
def UpdateTimer.read (d : Draft) : Except Fault UpdateTimer := do
  let fields :=
    [firstField "name" (readOption readString), secondField "locked" (readOption readBool)]
  let ((name, locked), form) ← readRecord fields (none, none) d
  let name ← name.elim (absent form) .ok
  let locked ← locked.elim (absent form) .ok
  return ⟨name, locked⟩

/-- The request for a new step. -/
structure InsertStep where
  target : DropTarget
  step : StepKind

def InsertStep.read (d : Draft) : Except Fault InsertStep := do
  let fields := [firstField "target" readTarget, secondField "step" readKind]
  let (s, _) ← readRecord fields (none, none) d
  match s with
  | (some target, some step) => .ok ⟨target, step⟩
  | _ => .error .unfit

/-- Reads a request to move a step: its drop target. -/
def readMove (d : Draft) : Except Fault DropTarget := do
  let (s, _) ← readRecord [onlyField "target" readTarget] none d
  s.elim (.error .unfit) .ok

/-- Reads a request that gives a name, or none. -/
def readNameRequest (d : Draft) : Except Fault (Option String) := do
  let (s, form) ← readRecord [onlyField "name" (readOption readString)] none d
  s.elim (absent form) .ok

/-- Reads a body. Text after the value does not matter. -/
def readBody {α : Type} (read : Reader α) (body : String) : Except Fault α :=
  read (Draft.scan body.toList).1

end StepTimer.Http
