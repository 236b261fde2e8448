/-
The file the timers are kept in. All timers stand in one file as an indented list. A save writes a
second file beside it and puts that in its place, so that the file is always whole; a file that
cannot be read is moved aside.
-/
import StepTimer.Timer.Codec
import StepTimer.Json.Print

namespace StepTimer

/-- Why the timers could not be loaded or saved. -/
inductive StoreError where
  /-- A file could not be accessed. -/
  | access
  /-- The file holds no list of timers. -/
  | format
deriving DecidableEq, Repr

/-- What a name in the folder stands for. -/
inductive FolderItem where
  | text (content : String)
  /-- A file that holds no text. -/
  | binary (bytes : List UInt8)
  | directory
deriving DecidableEq, Repr

/-- The folder of the timers file: the file itself, the one moved aside, and the one being written;
a folder that is missing holds none of them. -/
structure Folder where
  isThere : Bool := true
  file : Option FolderItem := none
  bad : Option FolderItem := none
  tmp : Option FolderItem := none
deriving DecidableEq, Repr

namespace Folder

def encode (timers : List Timer) : String := (Timer.listToJson timers).renderIndented

/-- Reads the list of timers that a text holds. -/
def decode? (text : String) : Option (List Timer) := do
  Timer.listOfJson? (← (Json.Draft.parse text).settleAs (.list Timer.shape))

/-- Loads the timers. Without a file there are none. -/
def load (f : Folder) : Except StoreError (List Timer) :=
  match f.file with
  | none => .ok []
  | some (.text content) =>
    match decode? content with
    | some timers => .ok timers
    | none => .error .format
  | some (.binary _) => .error .format
  | some .directory => .error .access

/-- Moves the file aside, over one that was moved aside before. -/
def moveAside (f : Folder) : Except StoreError Folder :=
  if f.bad = some .directory then .error .access
  else .ok { f with file := none, bad := f.file }

/-- Loads the timers; a file that cannot be read is moved aside, and there are no timers then. -/
def loadOrQuarantine (f : Folder) : Except StoreError (List Timer) × Folder :=
  match f.load with
  | .ok timers => (.ok timers, f)
  | .error .access => (.error .access, f)
  | .error .format =>
    match f.moveAside with
    | .ok f => (.ok [], f)
    | .error e => (.error e, f)

def writeTemp (f : Folder) (text : String) : Except StoreError Folder :=
  if f.isThere && f.tmp ≠ some .directory then .ok { f with tmp := some (.text text) }
  else .error .access

/-- Puts the second file in the place of the first. -/
def commit (f : Folder) : Except StoreError Folder :=
  if f.file = some .directory then .error .access else .ok { f with file := f.tmp, tmp := none }

/-- Saves the timers. When the second file cannot take its place it stays behind. -/
def save (f : Folder) (timers : List Timer) : Except StoreError Unit × Folder :=
  match f.writeTemp (encode timers) with
  | .error e => (.error e, f)
  | .ok written =>
    match written.commit with
    | .error e => (.error e, written)
    | .ok f => (.ok (), f)

/-- The folder when it is removed with all it holds. -/
def removed (_ : Folder) : Folder := { isThere := false }

/-- The folder when it is made again. -/
def restored (f : Folder) : Folder := { f with isThere := true }

end Folder

end StepTimer
