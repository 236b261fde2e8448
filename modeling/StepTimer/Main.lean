/-
The command line. The server takes one request a line from standard input, a method, a path and a
body with blanks between them, and answers each with a line of the status and the body. Timers are
kept in the file of the settings, and the log of runs goes to standard error.
-/
import Std.Time.DateTime.Timestamp
import StepTimer.Config
import StepTimer.Http.Server
import StepTimer.Log.Progress

namespace StepTimer.Main

open Http (Request Response)

/-- The text for the command line option that asks for help. -/
def usage : String :=
  "Block-based timers with sounds and notifications\n\n" ++
  "Usage: steptimer [OPTIONS]\n\n" ++
  "  -p, --port <PORT>            Port to bind the server to\n" ++
  "      --host <HOST>            Host address to bind to\n" ++
  "      --timers-file <FILE>     JSON file the timers are kept in\n" ++
  "      --player <COMMAND>       Player command; the sound URL is its last argument\n" ++
  "      --default-sound <URL>    Sound played by steps that use the default sound\n" ++
  "      --no-audio               Never play sounds\n" ++
  "      --no-notifications       Never show desktop notifications\n" ++
  "  -v, --verbose                Enable verbose logging\n" ++
  "  -h, --help                   Print help\n" ++
  "  -V, --version                Print version"

/-- The complaint about a command line that gives no settings. -/
def complaint : ConfigError → String
  | .displayHelp => usage
  | .displayVersion => Http.version
  | .badPort => "error: the port has to be a number from 0 to 65535"
  | .missingValue => "error: a value is required for an option"
  | .unknownArgument => "error: unexpected argument"
  | .repeated => "error: an option cannot be used multiple times"
  | .unneededValue => "error: unexpected value for an option"

/-- The item that a file name stands for. -/
def readItem (path : String) : IO (Option FolderItem) := do
  match ← (IO.FS.readBinFile path).toBaseIO with
  | .ok bytes =>
    match String.fromUTF8? bytes with
    | some content => return some (.text content)
    | none => return some (.binary bytes.toList)
  | .error (.noFileOrDirectory ..) => return none
  | .error _ => return some .directory

/-- Carries the change of a folder over to its files. -/
def writeBack (path : String) (before after : Folder) : IO Unit := do
  if before.file ≠ after.file then
    match after.file with
    | some (.text content) =>
      IO.FS.writeFile (path ++ ".tmp") content
      IO.FS.rename (path ++ ".tmp") path
    | none => IO.FS.rename path (path ++ ".bad")
    | some _ => pure ()

/-- The request that a line writes. -/
def requestOf (line : String) : Request :=
  let cs := line.toList
  let method := cs.takeWhile fun c => c ≠ ' '
  let rest := (cs.dropWhile fun c => c ≠ ' ').drop 1
  let path := rest.takeWhile fun c => c ≠ ' '
  let body := (rest.dropWhile fun c => c ≠ ' ').drop 1
  ⟨String.ofList method, String.ofList path, some "application/json", String.ofList body⟩

/-- The line that writes a response. -/
def lineOf (r : Response) : String :=
  r.status.repr ++ (r.body.map fun j => " " ++ j.render).getD ""

/-- The lines of the log that are shown with these settings. -/
def isShown (config : Config) (line : LogLine) : Bool := config.verbose || line.level ≠ .debug

/-- The server between two requests. -/
structure State where
  service : Service
  log : TransitionLog
  startedAt : Nat

def State.logged (s : State) : State × List LogLine :=
  let app := s.service.app
  let (log, lines) := s.log.recordAll (app.runner.announced.reverse.map (·.2))
  let runner := { app.runner with announced := [] }
  ({ s with log := log, service := { s.service with app := { app with runner := runner } } }, lines)

/-- Lets the clock of the service catch up with the clock of the system. -/
def State.caughtUp (s : State) (nowMs : Nat) : State :=
  { s with service := s.service.elapse (nowMs - s.startedAt - s.service.now.millis) }

/-- Answers the lines of standard input until it ends. -/
partial def serve (config : Config) (input output : IO.FS.Stream) (s : State) : IO Unit := do
  let line ← input.getLine
  if line.isEmpty then return
  let s := s.caughtUp (← IO.monoMsNow)
  let before := s.service.app.store.getD {}
  let (response, service) := Http.handle s.service (requestOf (Text.trim line))
  writeBack config.timersFile before (service.app.store.getD {})
  let (s, lines) := State.logged { s with service := service }
  for l in lines do
    if isShown config l then IO.eprintln l.message
  output.putStrLn (lineOf response)
  output.flush
  serve config input output s

/-- The equipment of a server that starts at a moment: sounds end at once, and no notification is
shown. -/
def equipment (config : Config) (start : WallTime) : Equipment :=
  ⟨fun _ _ => .lasts 0, .off, config.defaultSound, fun t => start.plusMillis t.millis⟩

def runServer (config : Config) : IO Unit := do
  let folder : Folder := { file := ← readItem config.timersFile }
  let (loaded, kept) := folder.loadOrQuarantine
  writeBack config.timersFile folder kept
  let seed ← IO.rand 0 0x4000000000000000
  let wall ← Std.Time.Timestamp.now
  let start : WallTime := ⟨wall.toMillisecondsSinceUnixEpoch.val⟩
  match loaded with
  | .error _ => IO.eprintln (AppError.storage .access).message
  | .ok timers =>
    let app : App :=
      { port := config.port, host := config.host
        ids := { issue := fun n => seed.repr ++ "-" ++ n.repr }
        timers := timers, runner := { equipment := equipment config start }, store := some kept }
    let state : State := ⟨{ app := app }, {}, ← IO.monoMsNow⟩
    serve config (← IO.getStdin) (← IO.getStdout) state

end StepTimer.Main

def main (args : List String) : IO UInt32 := do
  match StepTimer.Config.ofArgs ("steptimer" :: args) with
  | .ok config =>
    StepTimer.Main.runServer config
    return 0
  | .error e =>
    IO.println (StepTimer.Main.complaint e)
    return if e = .displayHelp ∨ e = .displayVersion then 0 else 2
