/-
The server. A request is answered in this order: an unknown path, a method the path does not know, a
name in the path that is no text, a body that is rejected, and then the refusal or the result of the
application.
-/
import StepTimer.App.Service
import StepTimer.Http.ContentType
import StepTimer.Http.Request
import StepTimer.Http.Route

namespace StepTimer.Http

/-- A request. -/
structure Request where
  method : String
  path : String
  contentType : Option String := none
  body : String := ""
deriving DecidableEq, Repr

/-- A response; an empty body is none. -/
structure Response where
  status : Nat
  body : Option Json := none

def Response.ok (body : Json) : Response := ⟨200, some body⟩

def Response.empty (status : Nat) : Response := ⟨status, none⟩

def statusOf : AppError → Nat
  | .timerNotFound _ => 404
  | .stepNotFound _ => 404
  | .logNotFound _ => 404
  | .locked _ => 409
  | .notRunning _ => 409
  | .notStopwatch _ => 409
  | .invalidName => 422
  | .invalidPlacement => 422
  | .storage _ => 500

def Fault.status : Fault → Nat
  | malformed => 400
  | unfit => 422

def version : String := "0.3.0"

/-! ## Values of the responses -/

def timestamp (s : Service) : Json := .string (s.app.runner.equipment.wall s.now).render

def runOf (s : Service) (id : TimerId) : RunState := s.app.runner.snapshot id s.now

def timerView (s : Service) (t : Timer) : Json :=
  .object (t.members ++ [("run", (runOf s t.id).toJson)])

def runView (s : Service) (id : TimerId) (action : String) (run : RunState) : Json :=
  .object [("timerId", .string id), ("message", .string ("Timer " ++ id ++ ": " ++ action)),
    ("timestamp", timestamp s), ("run", run.toJson)]

def lapView (lap : LogEntry) : Json :=
  .object [("log", lap.toJson), ("display", .string (renderDuration lap.elapsedMs))]

def statusView (s : Service) : Json :=
  let a := s.app
  let running := a.timers.filter fun t => (runOf s t.id).isRunning
  .object [("timers", .nat a.timers.length), ("running", .nat running.length),
    ("uptime", .string (a.uptime s.now)), ("port", .nat a.port.toNat), ("host", .string a.host),
    ("last_action", .ofOption (fun x => .string x.1) a.lastAction),
    ("last_action_time", .ofOption (fun x => .string x.2.render) a.lastAction)]

/-- The sign of life of the server. -/
def healthView (s : Service) : Json :=
  .object [("status", .string "ok"), ("timestamp", timestamp s), ("version", .string version)]

def replyView (s : Service) : Reply → Json
  | .done => .null
  | .timer t => timerView s t
  | .timers ts => .array (ts.map (timerView s))
  | .run state => state.toJson
  | .lap lap => lapView lap

/-! ## Answers -/

/-- Carries out a command and answers with its reply. -/
def run (s : Service) (c : Command) : Response × Service :=
  match s.perform c with
  | (.ok reply, s) => (.ok (replyView s reply), s)
  | (.error e, s) => (.empty (statusOf e), s)

def runCreation (s : Service) (c : Command) : Response × Service :=
  match run s c with
  | (⟨200, body⟩, s) => (⟨201, body⟩, s)
  | other => other

/-- Carries out a command whose reply is not sent. -/
def runSilently (s : Service) (c : Command) : Response × Service :=
  match run s c with
  | (⟨200, _⟩, s) => (.empty 204, s)
  | other => other

/-- The command of a control of a run, and the word for it. -/
def RunControl.command (id : TimerId) : RunControl → Command
  | start => .start id
  | pause => .pause id
  | restart => .restart id
  | stop => .stop id

def RunControl.word : RunControl → String
  | start => "start"
  | pause => "pause"
  | restart => "restart"
  | stop => "stop"

def runControl (s : Service) (id : TimerId) (c : RunControl) : Response × Service :=
  match s.perform (c.command id) with
  | (.ok (.run state), s) => (.ok (runView s id c.word state), s)
  | (.ok _, s) => (.empty 500, s)
  | (.error e, s) => (.empty (statusOf e), s)

/-- Reads the body of a request, and answers with its result or its rejection. -/
def withBody {α : Type} (s : Service) (q : Request) (read : Reader α)
    (act : α → Response × Service) : Response × Service :=
  if (q.contentType.map ContentType.isJson).getD false then
    match readBody read q.body with
    | .ok x => act x
    | .error fault => (.empty fault.status, s)
  else (.empty 415, s)

/-- The name in the body of a request; none when the body is rejected. -/
def optionalName (q : Request) : Option String :=
  if (q.contentType.map ContentType.isJson).getD false then
    ((readBody readNameRequest q.body).toOption).join
  else none

/-- Answers a method of a route that knows it. -/
def answer (s : Service) (q : Request) : Method → Route → Response × Service
  | .get, .timers => run s .list
  | _, .timers => withBody s q CreateTimer.read fun r => runCreation s (.create r.name r.mode)
  | .get, .timer id => run s (.get id)
  | .delete, .timer id => runSilently s (.delete id)
  | _, .timer id => withBody s q UpdateTimer.read fun r => run s (.update id r.name r.locked)
  | _, .steps id => withBody s q InsertStep.read fun r => run s (.insertStep id r.target r.step)
  | .delete, .step id step => run s (.deleteStep id step)
  | _, .step id step => withBody s q readKind fun kind => run s (.replaceStep id step kind)
  | _, .stepMove id step => withBody s q readMove fun target => run s (.moveStep id step target)
  | _, .stepDuplicate id step => run s (.duplicateStep id step)
  | _, .control id c => runControl s id c
  | _, .run id => run s (.runState id)
  | _, .mark id => run s (.mark id (optionalName q))
  | _, .reset id => run s (.reset id)
  | .delete, .log id log => run s (.deleteLog id log)
  | _, .log id log => withBody s q readNameRequest fun name =>
    run s (.renameLog id log (name.getD ""))
  | _, .status => (.ok (statusView s), s)
  | _, .health => (.ok (healthView s), s)

def dispatch (s : Service) (q : Request) (method : Option Method) : Response × Service :=
  match Route.ofPath? q.path with
  | none => (.empty 404, s)
  | some route =>
    match method with
    | none => (.empty 405, s)
    | some method =>
      if method ∈ route.methods then
        match route.decoded? with
        | none => (.empty 400, s)
        | some route => answer s q method route
      else (.empty 405, s)

/-- Answers a request. The question for the options of a path is always answered; a request for the
head of an answer gets no body. -/
def handle (s : Service) (q : Request) : Response × Service :=
  if q.method = "OPTIONS" then (.empty 200, s)
  else if q.method = "HEAD" then
    let (response, s) := dispatch s q (some .get)
    (.empty response.status, s)
  else dispatch s q (Method.ofName? q.method)

end StepTimer.Http
