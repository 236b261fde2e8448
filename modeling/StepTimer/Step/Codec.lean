/-
Steps as values of the data format. A step is a record with its name, the name of its kind under
`type`, and the fields of the kind beside them; optional fields are left out when absent. In reading,
any kind name that is not listed is the unknown kind, whose fields do not matter.
-/
import StepTimer.Step.Basic
import StepTimer.Json.Read

namespace StepTimer

/-! ## Names of the settings -/

def DurationUnit.names : List (String × DurationUnit) :=
  [("seconds", .seconds), ("minutes", .minutes), ("hours", .hours), ("days", .days)]

def DurationUnit.name : DurationUnit → String
  | seconds => "seconds"
  | minutes => "minutes"
  | hours => "hours"
  | days => "days"

/-- The written names of the halves of a day. -/
def Meridiem.names : List (String × Meridiem) := [("AM", .am), ("PM", .pm)]

/-- The written name of a half of a day. -/
def Meridiem.name : Meridiem → String
  | am => "AM"
  | pm => "PM"

/-- The written names of the sources of a sound. -/
def SoundSource.names : List (String × SoundSource) :=
  [("default", .builtin), ("url", .url), ("uploaded", .uploaded)]

/-- The written name of a source of a sound. -/
def SoundSource.name : SoundSource → String
  | builtin => "default"
  | url => "url"
  | uploaded => "uploaded"

/-- The value of a double; a number that is not finite has none and becomes null. -/
def Double.toJson (x : Double) : Json := if x.isFinite then .number (.double x) else .null

/-! ## Sounds and loop counts -/

def SoundSpec.members (sound : SoundSpec) : List (String × Json) :=
  [("soundSource", .string sound.source.name), ("label", .string sound.label)]
    ++ Json.optionalMember "url" .string sound.url

/-- The names of the fields of a sound. -/
def SoundSpec.fieldNames : List String := ["soundSource", "label", "url"]

/-- A sound from what is said of its fields. -/
def SoundSpec.ofFields? (strictness : Json.Strictness) (source label url : Json.Field) :
    Option SoundSpec := do
  let source ← source.orDefault .builtin (Json.oneOf? SoundSource.names strictness)
  let label ← label.orDefault "" Json.asString?
  let url ← url.optional Json.asString?
  return ⟨source, label, url⟩

def SoundSpec.toJson (sound : SoundSpec) : Json := .object sound.members

def SoundSpec.ofJson? (j : Json) : Option SoundSpec := do
  match ← j.fields? fieldNames with
  | [source, label, url] => ofFields? .strict source label url
  | _ => none

def RepeatCount.toJson (count : RepeatCount) : Json := .int count.toInt

def RepeatCount.ofJson? (j : Json) : Option RepeatCount :=
  (j.asInt? (-0x8000000000000000) 0x7FFFFFFFFFFFFFFF).map .ofInt

/-! ## Kinds -/

/-- The kinds of steps by name. -/
inductive KindTag where
  | wait | waitUntil | playSound | playSoundUntil | notify | notifyUntil | loop | unknown
deriving DecidableEq, Repr

namespace KindTag

def name : KindTag → String
  | wait => "wait"
  | waitUntil => "waitUntil"
  | playSound => "playSound"
  | playSoundUntil => "playSoundUntil"
  | notify => "notify"
  | notifyUntil => "notifyUntil"
  | loop => "loop"
  | unknown => "unknown"

def all : List KindTag := [wait, waitUntil, playSound, playSoundUntil, notify, notifyUntil, loop]

def ofName (name : String) : KindTag := (all.find? fun k => k.name = name).getD unknown

/-- The kind at a position of the fixed order. -/
def ofIndex (i : Nat) : KindTag := all[i]?.getD unknown

/-- The names of the fields of a kind, in their fixed order. -/
def fieldNames : KindTag → List String
  | wait => ["amount", "unit"]
  | waitUntil => ["time", "meridiem"]
  | playSound => SoundSpec.fieldNames
  | playSoundUntil => SoundSpec.fieldNames
  | notify => ["title", "body"]
  | notifyUntil =>
    ["title", "body", "soundSource", "label", "url", "timeoutMs", "intervalSeconds", "children"]
  | loop => ["repeatCount", "children"]
  | unknown => []

end KindTag

def StepKind.tag : StepKind → KindTag
  | action (.wait _ _) => .wait
  | action (.waitUntil _ _) => .waitUntil
  | action (.playSound _) => .playSound
  | action (.playSoundUntil _) => .playSoundUntil
  | action (.notify _ _) => .notify
  | action .unknown => .unknown
  | block (.notifyUntil _) _ => .notifyUntil
  | block (.loop _) _ => .loop

/-! ## Writing -/

def Action.members : Action → List (String × Json)
  | wait amount unit => [("amount", amount.toJson), ("unit", .string unit.name)]
  | waitUntil time half => [("time", .string time), ("meridiem", .string half.name)]
  | playSound sound => sound.members
  | playSoundUntil sound => sound.members
  | notify title body => ("title", .string title) :: Json.optionalMember "body" .string body
  | unknown => []

def Frame.members : Frame → List (String × Json)
  | notifyUntil alert =>
    ("title", .string alert.title) :: Json.optionalMember "body" .string alert.body
      ++ alert.sound.members
      ++ Json.optionalMember "timeoutMs" (fun ms : UInt64 => .nat ms.toNat) alert.timeoutMs
      ++ [("intervalSeconds", alert.interval.toJson)]
  | loop count => [("repeatCount", count.toJson)]

mutual

def Step.toJson : Step → Json
  | .leaf id a =>
    .object (("id", .string id) :: ("type", .string (StepKind.action a).tag.name) :: a.members)
  | .block id f children =>
    .object (("id", .string id) :: ("type", .string (StepKind.block f []).tag.name) ::
      (f.members ++ [("children", .array (Step.listToJson children))]))

def Step.listToJson : List Step → List Json
  | [] => []
  | s :: rest => s.toJson :: Step.listToJson rest

end

def StepKind.toJson : StepKind → Json
  | action a => .object (("type", .string (StepKind.action a).tag.name) :: a.members)
  | block f children =>
    .object (("type", .string (StepKind.block f []).tag.name) ::
      (f.members ++ [("children", .array (Step.listToJson children))]))

/-! ## Reading -/

/-- A step without a name from its kind, what is said of the fields of the kind, and the steps that
its field `children` holds, none when they cannot be read. -/
def StepKind.ofFields? (children : Option (List Step)) :
    KindTag → List Json.Field → Option StepKind
  | .wait, [amount, unit] => do
    let amount ← amount.required Json.asDouble?
    let unit ← unit.required (Json.oneOf? DurationUnit.names .lenient)
    return .action (.wait amount unit)
  | .waitUntil, [time, half] => do
    let time ← time.required Json.asString?
    let half ← half.required (Json.oneOf? Meridiem.names .lenient)
    return .action (.waitUntil time half)
  | .playSound, [source, label, url] =>
    (SoundSpec.ofFields? .lenient source label url).map fun sound => .action (.playSound sound)
  | .playSoundUntil, [source, label, url] =>
    (SoundSpec.ofFields? .lenient source label url).map fun sound => .action (.playSoundUntil sound)
  | .notify, [title, body] => do
    let title ← title.required Json.asString?
    let body ← body.optional Json.asString?
    return .action (.notify title body)
  | .notifyUntil, [title, body, source, label, url, timeout, interval, _] => do
    let title ← title.required Json.asString?
    let body ← body.optional Json.asString?
    let sound ← SoundSpec.ofFields? .lenient source label url
    let timeout ← timeout.optional Json.asUInt64?
    let interval ← interval.orDefault .zero Json.asDouble?
    let children ← children
    return .block (.notifyUntil ⟨title, body, sound, timeout, interval⟩) children
  | .loop, [count, _] => do
    let count ← count.required RepeatCount.ofJson?
    let children ← children
    return .block (.loop count) children
  | .unknown, _ => some (.action .unknown)
  | _, _ => none

/-- A step without a name from its members and its kind. -/
def StepKind.ofMembers? (tag : KindTag) (members : List (String × Json))
    (children : Option (List Step)) : Option StepKind := do
  StepKind.ofFields? children tag (← Json.namedFields? tag.fieldNames members)

/-- The kind that a step names. A position in the list of kinds serves as well. -/
def KindTag.ofJson? : Json → Option KindTag
  | .string name => some (.ofName name)
  | .number (.int i) => if 0 ≤ i then some (.ofIndex i.toNat) else none
  | _ => none

mutual

def Step.ofJson? : Json → Option Step
  | .object members =>
    let children := Step.childrenOf? members
    do
      match ← Json.namedFields? ["id", "type"] members with
      | [id, tag] =>
        let id ← id.required Json.asString?
        let tag ← tag.required KindTag.ofJson?
        let kind ← StepKind.ofMembers? tag members children
        return kind.named id
      | _ => none
  | _ => none

/-- The steps that the member `children` holds; none are held when it is left out. -/
def Step.childrenOf? : List (String × Json) → Option (List Step)
  | [] => some []
  | (name, j) :: rest => if name = "children" then Step.itemsOf? j else Step.childrenOf? rest

def Step.itemsOf? : Json → Option (List Step)
  | .array items => Step.allOf? items
  | _ => none

/-- Reads every value of a list as a step. -/
def Step.allOf? : List Json → Option (List Step)
  | [] => some []
  | j :: js =>
    match Step.ofJson? j, Step.allOf? js with
    | some s, some rest => some (s :: rest)
    | _, _ => none

end

/-- Reads a step without a name: a record with its kind, or a list of the kind and the fields. An
alert has no form as a list. -/
def StepKind.ofJson? : Json → Option StepKind
  | .object members => do
    match ← Json.namedFields? ["type"] members with
    | [tag] =>
      let name ← tag.required Json.asString?
      StepKind.ofMembers? (.ofName name) members (Step.childrenOf? members)
    | _ => none
  | .array (.string name :: items) => do
    let tag := KindTag.ofName name
    if tag = .notifyUntil then none
    else
      let children := match tag, items with
        | .loop, [_, j] => Step.itemsOf? j
        | _, _ => some []
      StepKind.ofFields? children tag (← Json.listedFields? tag.fieldNames items)
  | _ => none

/-! ## The fixed parts are read back -/

theorem DurationUnit.lookup_name (u : DurationUnit) : names.lookup u.name = some u := by
  cases u <;> decide

theorem Meridiem.lookup_name (m : Meridiem) : names.lookup m.name = some m := by
  cases m <;> decide

theorem SoundSource.lookup_name (s : SoundSource) : names.lookup s.name = some s := by
  cases s <;> decide

theorem KindTag.ofName_name (k : KindTag) : ofName k.name = k := by
  cases k <;> decide

end StepTimer
