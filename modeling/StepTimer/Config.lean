/-
The settings of the server, read from command line arguments. Options are read from left to right;
the value of an option that stands in an argument of its own is checked only when the next known
option or the end of the line comes, so an unknown argument is reported before it.
-/
namespace StepTimer

/-- The settings of the server. -/
structure Config where
  port : UInt16 := 20554
  host : String := "127.0.0.1"
  /-- The file the timers are kept in. -/
  timersFile : String := "timers.json"
  /-- The command that plays a sound; the address is its last argument. -/
  player : String := "ffplay -nodisp -autoexit -loglevel quiet"
  defaultSound : String := "/usr/share/sounds/freedesktop/stereo/complete.oga"
  noAudio : Bool := false
  noNotifications : Bool := false
  verbose : Bool := false
deriving DecidableEq, Repr

/-- Why there are no settings. -/
inductive ConfigError where
  | displayHelp
  | displayVersion
  /-- The port is not a number from 0 to 65535. -/
  | badPort
  /-- An option without its value, or an empty file name. -/
  | missingValue
  | unknownArgument
  /-- An option that was given before. -/
  | repeated
  /-- A value for an option that takes none. -/
  | unneededValue
deriving DecidableEq, Repr

namespace Config

/-- The options that take a value. -/
inductive Setting where
  | port | host | timersFile | player | defaultSound
deriving DecidableEq, Repr

/-- The options that take none. -/
inductive Switch where
  | noAudio | noNotifications | verbose | help | version
deriving DecidableEq, Repr

/-- An option. -/
inductive Opt where
  | setting (s : Setting)
  | switch (s : Switch)
deriving DecidableEq, Repr

def longNames : List (String × Opt) :=
  [("port", .setting .port), ("host", .setting .host), ("timers-file", .setting .timersFile),
    ("player", .setting .player), ("default-sound", .setting .defaultSound),
    ("no-audio", .switch .noAudio), ("no-notifications", .switch .noNotifications),
    ("verbose", .switch .verbose), ("help", .switch .help), ("version", .switch .version)]

def shortNames : List (Char × Opt) :=
  [('p', .setting .port), ('v', .switch .verbose), ('h', .switch .help), ('V', .switch .version)]

/-- The number that a run of decimal digits writes. -/
def digitsValue? (cs : List Char) : Option Nat :=
  if cs.isEmpty || !cs.all Char.isDigit then none
  else some (cs.foldl (fun n c => n * 10 + (c.toNat - '0'.toNat)) 0)

/-- Reads a port: a decimal number, also with leading zeros or a sign. -/
def readPort? (text : String) : Option UInt16 := do
  let n ← match text.toList with
    | '+' :: cs => digitsValue? cs
    | '-' :: cs => (digitsValue? cs).filter fun n => n = 0
    | cs => digitsValue? cs
  if n < 65536 then some (UInt16.ofNat n) else none

/-- The settings read so far. -/
structure Reading where
  config : Config := {}
  /-- The options seen. -/
  seen : List Opt := []
  /-- An option in front of its value, which may have been read. -/
  pending : Option (Setting × Option String) := none
deriving Repr

namespace Reading

/-- Counts an option as seen; it may not have been seen before. -/
def see (r : Reading) (o : Opt) : Except ConfigError Reading :=
  if o ∈ r.seen then .error .repeated else .ok { r with seen := o :: r.seen }

def assign (r : Reading) (s : Setting) (value : String) : Except ConfigError Reading := do
  let r ← r.see (.setting s)
  let c := r.config
  match s with
  | .port =>
    match readPort? value with
    | some port => return { r with config := { c with port := port } }
    | none => .error .badPort
  | .host => return { r with config := { c with host := value } }
  | .timersFile =>
    if value = "" then .error .missingValue
    else return { r with config := { c with timersFile := value } }
  | .player => return { r with config := { c with player := value } }
  | .defaultSound => return { r with config := { c with defaultSound := value } }

def resolve (r : Reading) : Except ConfigError Reading :=
  match r.pending with
  | none => .ok r
  | some (_, none) => .error .missingValue
  | some (s, some value) => { r with pending := none }.assign s value

def turnOn (r : Reading) (s : Switch) : Except ConfigError Reading := do
  let r ← r.resolve
  match s with
  | .help => .error .displayHelp
  | .version => .error .displayVersion
  | .noAudio =>
    let r ← r.see (.switch s)
    return { r with config := { r.config with noAudio := true } }
  | .noNotifications =>
    let r ← r.see (.switch s)
    return { r with config := { r.config with noNotifications := true } }
  | .verbose =>
    let r ← r.see (.switch s)
    return { r with config := { r.config with verbose := true } }

/-- Gives a setting the value that is attached to it. -/
def attach (r : Reading) (s : Setting) (value : String) : Except ConfigError Reading := do
  (← r.resolve).assign s value

/-- Waits for the value of a setting in the next argument. -/
def await (r : Reading) (s : Setting) : Except ConfigError Reading := do
  return { (← r.resolve) with pending := some (s, none) }

/-- Reads an argument that begins with two dashes, without them. -/
def readLong (r : Reading) (body : List Char) : Except ConfigError Reading :=
  let name := String.ofList (body.takeWhile fun c => c ≠ '=')
  let value := match body.dropWhile fun c => c ≠ '=' with
    | [] => none
    | _ :: cs => some (String.ofList cs)
  match longNames.lookup name, value with
  | none, _ => .error .unknownArgument
  | some (.setting s), some value => r.attach s value
  | some (.setting s), none => r.await s
  | some (.switch _), some _ => .error .unneededValue
  | some (.switch s), none => r.turnOn s

/-- Reads an argument of short options, without its dash. The first option that takes a value takes
the rest of the argument, after an equals sign if there is one. -/
def readShort (r : Reading) : List Char → Except ConfigError Reading
  | [] => .ok r
  | c :: cs =>
    match shortNames.lookup c with
    | none => .error .unknownArgument
    | some (.switch s) => do readShort (← r.turnOn s) cs
    | some (.setting s) =>
      match cs with
      | [] => r.await s
      | '=' :: cs => r.attach s (String.ofList cs)
      | cs => r.attach s (String.ofList cs)

/-- Reads an argument that is no option: the value of the pending one. -/
def readValue (r : Reading) (value : String) : Except ConfigError Reading :=
  match r.pending with
  | some (s, none) => .ok { r with pending := some (s, some value) }
  | _ => .error .unknownArgument

/-- Reads the arguments. After two dashes alone no argument is known. -/
def readAll (r : Reading) : List String → Except ConfigError Reading
  | [] => r.resolve
  | arg :: rest =>
    match arg.toList with
    | ['-', '-'] => if rest.isEmpty then r.resolve else .error .unknownArgument
    | '-' :: '-' :: body => do readAll (← r.readLong body) rest
    | '-' :: c :: cs => do readAll (← r.readShort (c :: cs)) rest
    | _ => do readAll (← r.readValue arg) rest

end Reading

/-- Reads the arguments of a command line, the first of which is the name of the program. -/
def ofArgs (args : List String) : Except ConfigError Config := do
  return (← ({} : Reading).readAll (args.drop 1)).config

def address (c : Config) : String := c.host ++ ":" ++ c.port.toNat.repr

def logLevel (c : Config) : String := if c.verbose then "debug" else "info"

end Config

end StepTimer
