/-
The paths of the server. A path is split at its slashes as it is written; the names of timers, steps
and laps in it are percent-decoded, and have to be text then.
-/
namespace StepTimer.Http

/-- The controls of a run that have a path. -/
inductive RunControl where
  | start | pause | restart | stop
deriving DecidableEq, Repr

/-- What a path names. -/
inductive Route where
  | timers
  | timer (id : String)
  | steps (id : String)
  | step (id step : String)
  | stepMove (id step : String)
  | stepDuplicate (id step : String)
  | control (id : String) (control : RunControl)
  | run (id : String)
  | mark (id : String)
  | reset (id : String)
  | log (id log : String)
  | status
  | health
deriving DecidableEq, Repr

/-- The methods that some path knows. -/
inductive Method where
  | get | post | put | patch | delete
deriving DecidableEq, Repr

def Method.ofName? : String → Option Method
  | "GET" => some .get
  | "POST" => some .post
  | "PUT" => some .put
  | "PATCH" => some .patch
  | "DELETE" => some .delete
  | _ => none

namespace Route

/-- The segments of a path, which begins with a slash; what follows a question mark or a number sign
is no part of it. -/
def segments? (path : String) : Option (List String) :=
  match (path.toList.takeWhile fun c => c ≠ '?' && c ≠ '#') with
  | '/' :: cs => some ((String.ofList cs).splitOn "/")
  | _ => none

/-- The route of the segments of a path; a name may not be empty. -/
def ofSegments? : List String → Option Route
  | ["timers"] => some .timers
  | ["status"] => some .status
  | ["health"] => some .health
  | ["timers", id] => if id = "" then none else some (.timer id)
  | ["timers", id, word] =>
    if id = "" then none
    else match word with
      | "steps" => some (.steps id)
      | "start" => some (.control id .start)
      | "pause" => some (.control id .pause)
      | "restart" => some (.control id .restart)
      | "stop" => some (.control id .stop)
      | "run" => some (.run id)
      | "mark" => some (.mark id)
      | "reset" => some (.reset id)
      | _ => none
  | ["timers", id, "steps", s] => if id = "" ∨ s = "" then none else some (.step id s)
  | ["timers", id, "logs", l] => if id = "" ∨ l = "" then none else some (.log id l)
  | ["timers", id, "steps", s, word] =>
    if id = "" ∨ s = "" then none
    else match word with
      | "move" => some (.stepMove id s)
      | "duplicate" => some (.stepDuplicate id s)
      | _ => none
  | _ => none

def ofPath? (path : String) : Option Route := (segments? path).bind ofSegments?

def methods : Route → List Method
  | timers => [.get, .post]
  | timer _ => [.get, .patch, .delete]
  | steps _ => [.post]
  | step _ _ => [.put, .delete]
  | stepMove _ _ => [.post]
  | stepDuplicate _ _ => [.post]
  | control _ _ => [.post]
  | run _ => [.get]
  | mark _ => [.post]
  | reset _ => [.post]
  | log _ _ => [.patch, .delete]
  | status => [.get]
  | health => [.get]

/-! ## Percent-decoding -/

def hexDigit? (b : UInt8) : Option UInt8 :=
  if 48 ≤ b ∧ b ≤ 57 then some (b - 48)
  else if 97 ≤ b ∧ b ≤ 102 then some (b - 87)
  else if 65 ≤ b ∧ b ≤ 70 then some (b - 55)
  else none

/-- Replaces every percent sign with two hexadecimal digits by their byte; others stay. -/
def decodeBytes : List UInt8 → List UInt8
  | 37 :: a :: b :: rest =>
    match hexDigit? a, hexDigit? b with
    | some x, some y => (x * 16 + y) :: decodeBytes rest
    | _, _ => 37 :: decodeBytes (a :: b :: rest)
  | b :: rest => b :: decodeBytes rest
  | [] => []

/-- The text that a segment of a path stands for, if it is text. -/
def decode? (segment : String) : Option String :=
  String.fromUTF8? ⟨(decodeBytes segment.toUTF8.toList).toArray⟩

/-- The route with its names decoded. -/
def decoded? : Route → Option Route
  | timers => some timers
  | timer id => do return timer (← decode? id)
  | steps id => do return steps (← decode? id)
  | step id s => do return step (← decode? id) (← decode? s)
  | stepMove id s => do return stepMove (← decode? id) (← decode? s)
  | stepDuplicate id s => do return stepDuplicate (← decode? id) (← decode? s)
  | control id c => do return control (← decode? id) c
  | run id => do return run (← decode? id)
  | mark id => do return mark (← decode? id)
  | reset id => do return reset (← decode? id)
  | log id l => do return log (← decode? id) (← decode? l)
  | status => some status
  | health => some health

end Route

end StepTimer.Http
