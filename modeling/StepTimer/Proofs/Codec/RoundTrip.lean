/-
The codec of the data format goes there and back. A codec is a writer and a reader with two laws: what is
written is read back, and what is read of any value at all is written to a value that reads the same.
-/
import StepTimer.Proofs.Codec.Steps
import StepTimer.Timer.Codec

namespace StepTimer

open Json (Field)

/-! ## Timers -/

theorem Json.listOf?_map {α : Type} {read : Json → Option α} {write : α → Json} {as : List α}
    (back : ∀ a ∈ as, read (write a) = some a) : listOf? read (.array (as.map write)) = some as := by
  show (as.map write).mapM read = some as
  induction as with
  | nil => rfl
  | cons a as ih =>
    rw [List.map_cons, List.mapM_cons, back a (List.mem_cons_self ..),
      ih fun a h => back a (List.mem_cons_of_mem _ h)]
    rfl

namespace Timer

/-- What a written timer says of its laps. -/
def logField (logs : List LogEntry) : Field :=
  if logs.isEmpty then .missing else .given (.array (logs.map LogEntry.toJson))

theorem orDefault_logField (logs : List LogEntry) :
    (logField logs).orDefault [] (Json.listOf? LogEntry.ofJson?) = some logs := by
  unfold logField
  split
  next hnil => rw [List.isEmpty_iff.1 hnil]; rfl
  next => exact Json.listOf?_map fun l _ => l.ofJson?_toJson

/-- What a written timer says of its fields. -/
def fields (t : Timer) : List Field :=
  [.given (.string t.id), .given (.string t.name), .given (.array (Step.listToJson t.steps)),
    .given (.string t.mode.name), .given (.bool t.locked), logField t.logs]

theorem fields?_toJson (t : Timer) : t.toJson.fields? fieldNames = some t.fields := by
  obtain ⟨id, name, steps, mode, locked, logs⟩ := t
  cases logs <;> rfl

/-- A timer whose steps have finite amounts is read back as it was written. -/
theorem ofJson?_toJson (t : Timer) (h : AreFinite (Step.amountsOf t.steps)) : ofJson? t.toJson = some t := by
  have steps : Step.itemsOf? (.array (Step.listToJson t.steps)) = some t.steps := by
    rw [Step.itemsOf?]; exact Step.allOf?_listToJson t.steps h
  have mode : TimerMode.ofJson? (.string t.mode.name) = some t.mode := TimerMode.lookup_name t.mode
  unfold ofJson?
  rw [fields?_toJson]
  simp [fields, Field.required, Json.asString?, Json.asBool?, steps, mode, orDefault_logField]

/-- A timer that is read from a value of the data format has finite amounts. -/
theorem finite_of_ofJson? {j : Json} {t : Timer} (held : j.IsHeld) (h : ofJson? j = some t) :
    AreFinite (Step.amountsOf t.steps) := by
  obtain ⟨fs, hfs, h⟩ := Option.bind_eq_some_iff.1 h
  split at h
  next id name steps mode locked logs =>
    simp only [Option.bind_eq_bind, Option.bind_eq_some_iff, Option.pure_def, Option.some.injEq] at h
    obtain ⟨_, -, _, -, read, hread, _, -, _, -, _, -, rfl⟩ := h
    cases steps with
    | given j => exact Step.finite_of_itemsOf? j (Json.held_of_fields? held hfs (by simp)) hread
    | missing => cases hread; simp [AreFinite]
    | cut => cases hread; simp [AreFinite]
  next => cases h

end Timer

/-! ## The laws of a codec -/

/-- A writer and a reader that belong together. Values that are not fine have a part that the data format
cannot hold. -/
structure RoundTrip {α : Type} (write : α → Json) (read : Json → Option α) (fine : α → Prop) : Prop where
  /-- What is written is read back. -/
  back : ∀ a, fine a → read (write a) = some a
  /-- What is read of any value of the format is written to a value that reads the same. -/
  again : ∀ j a, j.IsHeld → read j = some a → read (write a) = some a

/-- The second law follows when all that is read is fine. -/
theorem RoundTrip.of_fine {α : Type} {write : α → Json} {read : Json → Option α} {fine : α → Prop}
    (back : ∀ a, fine a → read (write a) = some a) (isFine : ∀ j a, j.IsHeld → read j = some a → fine a) :
    RoundTrip write read fine :=
  ⟨back, fun j a held h => back a (isFine j a held h)⟩

theorem RoundTrip.of_all {α : Type} {write : α → Json} {read : Json → Option α}
    (back : ∀ a, read (write a) = some a) : RoundTrip write read fun _ => True :=
  .of_fine (fun a _ => back a) fun _ _ _ _ => trivial

/-- Each of the written types is read back, and whatever is accepted of one of them is read again from what it
is written to. Only an amount of time can keep a value from being fine, one that is not a finite number. -/
theorem codec_roundTrip :
    RoundTrip Step.toJson Step.ofJson? (fun s => AreFinite s.amounts) ∧
    RoundTrip Timer.toJson Timer.ofJson? (fun t => AreFinite (Step.amountsOf t.steps)) ∧
    RoundTrip LogEntry.toJson LogEntry.ofJson? (fun _ => True) ∧
    RoundTrip DropTarget.toJson DropTarget.ofJson? (fun _ => True) ∧
    RoundTrip SoundSpec.toJson SoundSpec.ofJson? (fun _ => True) ∧
    RoundTrip RepeatCount.toJson RepeatCount.ofJson? (fun _ => True) ∧
    RoundTrip RunState.toJson RunState.ofJson? (fun _ => True) := by
  refine ⟨?step, ?timer, .of_all LogEntry.ofJson?_toJson, .of_all DropTarget.ofJson?_toJson,
    .of_all SoundSpec.ofJson?_toJson, .of_all RepeatCount.ofJson?_toJson, .of_all RunState.ofJson?_toJson⟩
  case step =>
    exact .of_fine Step.ofJson?_toJson fun j _ held h => Step.finite_of_ofJson? j held h
  case timer =>
    exact .of_fine Timer.ofJson?_toJson fun _ _ held h => Timer.finite_of_ofJson? held h

/-- An alert with all its optional fields, around a loop without end. -/
def bell : Step :=
  .block "a" (.notifyUntil ⟨"Tea", some "ready", ⟨.uploaded, "bell", some "data:audio/wav;base64,"⟩,
    some 0xFFFFFFFFFFFFFFFF, .ofInt 3⟩)
    [.block "b" (.loop .infinite) [.leaf "c" (.wait (.ofInt 1) .minutes), .leaf "d" .unknown]]

/-- A loop whose kind is given by its position, with a count that is not allowed and a member that is not known. -/
def oddLoop : Json :=
  .object [("colour", .null), ("repeatCount", .int (-7)), ("type", .int 6), ("id", .string "a")]

theorem codec_roundTrip_bell_oddLoop :
    AreFinite bell.amounts ∧ Step.ofJson? bell.toJson = some bell ∧
    Step.ofJson? oddLoop = some (.block "a" (.loop (.times 0)) []) ∧
    Step.ofJson? (Step.block "a" (.loop (.times 0)) []).toJson = some (.block "a" (.loop (.times 0)) []) := by
  have finite : AreFinite bell.amounts := by
    intro x hx
    simp only [bell, Step.amounts_block, Step.amountsOf_cons, Step.amounts_leaf, Step.amountsOf_nil, Frame.amounts,
      Action.amounts, List.append_nil, List.nil_append, List.cons_append, List.mem_cons, List.not_mem_nil,
      or_false] at hx
    rcases hx with rfl | rfl <;> exact Double.isFinite_ofInt (by decide)
  have held : oddLoop.IsHeld := by
    intro n hn
    simp only [oddLoop, Json.numbers, Json.numbersOf, Json.int, List.nil_append, List.append_nil, List.cons_append,
      List.mem_cons, List.not_mem_nil, or_false] at hn
    rcases hn with rfl | rfl <;> exact ⟨by decide, by decide⟩
  have read : Step.ofJson? oddLoop = some (.block "a" (.loop (.times 0)) []) := by rfl
  exact ⟨finite, codec_roundTrip.1.back bell finite, read, codec_roundTrip.1.again _ _ held read⟩

end StepTimer

