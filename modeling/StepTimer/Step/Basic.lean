/-
Steps, the building blocks of a timer. A step is an action, which takes its time and ends, or a
block, which frames a list of steps: a loop repeats them, an alert runs them while its notification
is up. A step of a kind this library does not know is an action that does nothing.
-/
import StepTimer.Time.Amount
import StepTimer.Time.Clock
import StepTimer.Text.Blank

namespace StepTimer

/-- The name of a step, unique within a timer. -/
abbrev StepId := String

/-- Where the sound of a step comes from. -/
inductive SoundSource where
  | builtin | url | uploaded
deriving DecidableEq, Repr, Inhabited

/-- The choice of a sound. -/
structure SoundSpec where
  source : SoundSource := .builtin
  label : String := ""
  /-- The address of the sound, or the sound itself as a data address. -/
  url : Option String := none
deriving DecidableEq, Repr, Inhabited

/-- The address to play: the chosen one, unless the built-in sound is meant or none is given. -/
def SoundSpec.effectiveUrl (sound : SoundSpec) (fallback : String) : String :=
  match sound.source, sound.url with
  | .builtin, _ => fallback
  | _, some url => if Text.trim url = "" then fallback else url
  | _, none => fallback

/-- How often a loop runs its steps. -/
inductive RepeatCount where
  | infinite
  | times (n : UInt32)
deriving DecidableEq, Repr, Inhabited

namespace RepeatCount

/-- The count for a written integer: −1 is without end, other negative numbers are zero, and numbers
that are too large are cut to the largest count. -/
def ofInt (i : Int) : RepeatCount :=
  if i = -1 then infinite else times (UInt32.ofNatClamp i.toNat)

/-- The written integer of a count. -/
def toInt : RepeatCount → Int
  | infinite => -1
  | times n => n.toNat

end RepeatCount

/-- What an action does. -/
inductive Action where
  | wait (amount : Double) (unit : DurationUnit)
  | waitUntil (time : String) (half : Meridiem)
  | playSound (sound : SoundSpec)
  | playSoundUntil (sound : SoundSpec)
  | notify (title : String) (body : Option String)
  | unknown
deriving DecidableEq, Repr, Inhabited

/-- The settings of an alert: a notification with a sound or steps that repeat until it is dismissed
or its time is over. -/
structure Alert where
  title : String
  body : Option String := none
  sound : SoundSpec := {}
  timeoutMs : Option UInt64 := none
  /-- The pause between two rounds, in seconds. -/
  interval : Double := .zero
deriving DecidableEq, Repr

/-- The timeout of an alert that gives none. -/
def Alert.defaultTimeoutMs : UInt64 := 10000

/-- The time after which an alert ends by itself. -/
def Alert.timeout (alert : Alert) : UInt64 := alert.timeoutMs.getD defaultTimeoutMs

/-- The milliseconds between two rounds of an alert. -/
def Alert.intervalMs (alert : Alert) : UInt64 := DurationUnit.seconds.durationMillis alert.interval

/-- The settings of a block. -/
inductive Frame where
  | notifyUntil (alert : Alert)
  | loop (count : RepeatCount)
deriving DecidableEq, Repr

/-- The settings of a step, without its name and its children. -/
inductive Settings where
  | action (action : Action)
  | block (frame : Frame)
deriving DecidableEq, Repr

/-- Whether a step of these settings can hold children. -/
def Settings.isContainer : Settings → Bool
  | .action _ => false
  | .block _ => true

/-- A step of a timer. -/
inductive Step where
  | leaf (id : StepId) (action : Action)
  | block (id : StepId) (frame : Frame) (children : List Step)
deriving Repr, Inhabited

/-- A step that has no name yet. -/
inductive StepKind where
  | action (action : Action)
  | block (frame : Frame) (children : List Step)
deriving Repr, Inhabited

def StepKind.named (id : StepId) : StepKind → Step
  | action a => .leaf id a
  | block f children => .block id f children

namespace Step

def id : Step → StepId
  | leaf id _ => id
  | block id _ _ => id

def kind : Step → StepKind
  | leaf _ a => .action a
  | block _ f children => .block f children

def settings : Step → Settings
  | leaf _ a => .action a
  | block _ f _ => .block f

def children : Step → List Step
  | leaf _ _ => []
  | block _ _ children => children

def isContainer (s : Step) : Bool := s.settings.isContainer

/-- The step under another name. -/
def withId (s : Step) (id : StepId) : Step :=
  match s with
  | leaf _ a => leaf id a
  | block _ f children => block id f children

/-- The step with other children; an action holds none. -/
def withChildren (s : Step) (children : List Step) : Step :=
  match s with
  | leaf id a => leaf id a
  | block id f _ => block id f children

/-- What is left of a step when its children are taken out of it. -/
def bare (s : Step) : Step := s.withChildren []

section

variable (s : Step) (name : StepId) (steps : List Step)

@[simp] theorem id_withId : (s.withId name).id = name := by cases s <;> rfl

@[simp] theorem settings_withId : (s.withId name).settings = s.settings := by cases s <;> rfl

@[simp] theorem isContainer_withId : (s.withId name).isContainer = s.isContainer := by cases s <;> rfl

@[simp] theorem id_withChildren : (s.withChildren steps).id = s.id := by cases s <;> rfl

@[simp] theorem settings_withChildren : (s.withChildren steps).settings = s.settings := by cases s <;> rfl

@[simp] theorem id_bare : s.bare.id = s.id := s.id_withChildren []

@[simp] theorem settings_bare : s.bare.settings = s.settings := s.settings_withChildren []

@[simp] theorem isContainer_bare : s.bare.isContainer = s.isContainer := by cases s <;> rfl

@[simp] theorem children_bare : s.bare.children = [] := by cases s <;> rfl

@[simp] theorem bare_withChildren : (s.withChildren steps).bare = s.bare := by cases s <;> rfl

theorem withChildren_children : s.withChildren s.children = s := by cases s <;> rfl

end

/-- A step holds the children that it is given, unless it is an action and there are some. -/
theorem children_withChildren {s : Step} {steps : List Step} (h : s.isContainer = false → steps = []) :
    (s.withChildren steps).children = steps := by
  cases s with
  | leaf id a => exact (h rfl).symm
  | block id f children => rfl

/-- A step without children is as it was when they are taken out. -/
theorem bare_of_children_eq_nil {s : Step} (h : s.children = []) : s.bare = s := by
  rw [bare, ← h, withChildren_children]

mutual

/-- The names of a step and of all steps below it, each step before its children. -/
def ids : Step → List StepId
  | leaf id _ => [id]
  | block id _ children => id :: idsOf children

/-- The names of the steps of a list and of all steps below them. -/
def idsOf : List Step → List StepId
  | [] => []
  | s :: rest => ids s ++ idsOf rest

end

theorem id_mem_ids (s : Step) : s.id ∈ s.ids := by
  cases s <;> simp [id, ids]

mutual

/-- The number of steps in a step: itself and all steps below it. -/
def size : Step → Nat
  | leaf _ _ => 1
  | block _ _ children => 1 + count children

/-- The number of steps in a list, with all steps below them. -/
def count : List Step → Nat
  | [] => 0
  | s :: rest => size s + count rest

end

mutual

/-- The step of a name inside a step, in depth-first order. -/
def findIn? (name : StepId) : Step → Option Step
  | leaf id a => if id = name then some (leaf id a) else none
  | block id f children =>
    if id = name then some (block id f children) else find? name children

/-- The first step of a name in a list or below it. -/
def find? (name : StepId) : List Step → Option Step
  | [] => none
  | s :: rest =>
    match findIn? name s with
    | some found => some found
    | none => find? name rest

end

end Step

end StepTimer
