/-
Fields that are written are read back: plain values, optional fields, and the sounds, loop counts, laps,
drop targets and snapshots that are made of them.
-/
import StepTimer.Run.State
import StepTimer.Tree.Target

namespace StepTimer

namespace Json

variable {α : Type}

/-! ## Plain values -/

@[simp] theorem oneOf?_string (names : List (String × α)) (strictness : Strictness) (name : String) :
    oneOf? names strictness (.string name) = names.lookup name := rfl

theorem asDouble?_toJson {x : Double} (h : x.isFinite = true) : x.toJson.asDouble? = some x := by
  unfold Double.toJson; rw [if_pos h]; rfl

theorem asInt?_int {low high i : Int} (h : low ≤ i ∧ i ≤ high) : (int i).asInt? low high = some i := if_pos h

@[simp] theorem asUInt64?_nat (n : UInt64) : (nat n.toNat).asUInt64? = some n := by
  have hn := n.toNat_lt
  have bounds : (0 : Int) ≤ n.toNat ∧ (n.toNat : Int) ≤ 0xFFFFFFFFFFFFFFFF := by omega
  show ((int n.toNat).asInt? 0 0xFFFFFFFFFFFFFFFF).map _ = _
  rw [asInt?_int bounds, Option.map_some, Int.toNat_natCast, UInt64.ofNat_toNat]

@[simp] theorem asInt64?_int (i : Int64) : (int i.toInt).asInt64? = some i := by
  have low := i.le_toInt
  have high := i.toInt_lt
  unfold asInt64?
  rw [asInt?_int (by omega), Option.map_some, Int64.ofInt_toInt]

/-! ## Optional fields -/

/-- What is said of a field that is left out when it is absent. -/
def Field.ofOption (write : α → Json) : Option α → Field
  | none => .missing
  | some a => .given (write a)

variable {read : Json → Option α}

theorem Field.optional_given {j : Json} (h : j ≠ null) : (given j).optional read = (read j).map some := by
  cases j with
  | null => exact absurd rfl h
  | _ => rfl

@[simp] theorem Field.orDefault_given (default : α) (read : Json → Option α) (j : Json) :
    (given j).orDefault default read = read j := rfl

theorem Field.nullable_given {j : Json} (h : j ≠ null) : (given j).nullable read = (read j).map some := by
  cases j with
  | null => exact absurd rfl h
  | _ => rfl

theorem Field.optional_ofOption (write : α → Json) (notNull : ∀ a, write a ≠ null)
    (back : ∀ a, read (write a) = some a) (o : Option α) : (ofOption write o).optional read = some o := by
  rcases o with _ | a
  · rfl
  · show (given (write a)).optional read = _
    rw [optional_given (notNull a), back]; rfl

theorem Field.nullable_ofOption (write : α → Json) (notNull : ∀ a, write a ≠ null)
    (back : ∀ a, read (write a) = some a) (o : Option α) : (given (Json.ofOption write o)).nullable read = some o := by
  rcases o with _ | a
  · rfl
  · show (given (write a)).nullable read = _
    rw [nullable_given (notNull a), back]; rfl

end Json

open Json (Field)

/-! ## Sounds and loop counts -/

theorem SoundSpec.ofFields?_written (strictness : Json.Strictness) (s : SoundSpec) :
    ofFields? strictness (.given (.string s.source.name)) (.given (.string s.label))
      (.ofOption .string s.url) = some s := by
  have hurl : (Field.ofOption .string s.url).optional Json.asString? = some s.url :=
    Field.optional_ofOption Json.string (fun _ h => by cases h) (fun _ => rfl) s.url
  simp [ofFields?, Field.orDefault, SoundSource.lookup_name, Json.asString?, hurl]

theorem SoundSpec.ofJson?_toJson (s : SoundSpec) : ofJson? s.toJson = some s := by
  have fields : s.toJson.fields? fieldNames = some
      [.given (.string s.source.name), .given (.string s.label), .ofOption .string s.url] := by
    rcases s with ⟨_, _, _ | _⟩ <;> rfl
  unfold ofJson?
  rw [fields]; exact ofFields?_written .strict s

theorem RepeatCount.ofInt_toInt (c : RepeatCount) : ofInt c.toInt = c := by
  cases c with
  | infinite => rfl
  | times n =>
    show (if (n.toNat : Int) = -1 then infinite else times (UInt32.ofNatClamp (n.toNat : Int).toNat)) = times n
    rw [if_neg (by omega), Int.toNat_natCast, UInt32.ofNatClamp_toNat]

theorem RepeatCount.ofJson?_toJson (c : RepeatCount) : ofJson? c.toJson = some c := by
  have bounds : -0x8000000000000000 ≤ c.toInt ∧ c.toInt ≤ 0x7FFFFFFFFFFFFFFF := by
    cases c with
    | infinite => decide
    | times n =>
      have hn := n.toNat_lt
      show (-0x8000000000000000 : Int) ≤ n.toNat ∧ (n.toNat : Int) ≤ 0x7FFFFFFFFFFFFFFF
      omega

  unfold ofJson? toJson
  rw [Json.asInt?_int bounds, Option.map_some, ofInt_toInt]

/-! ## Laps, drop targets and snapshots -/

theorem LogEntry.ofJson?_toJson (l : LogEntry) : ofJson? l.toJson = some l := by
  have fields : l.toJson.fields? fieldNames = some
      [.given (.string l.id), .given (.string l.name), .given (.nat l.elapsedMs.toNat),
        .given (.int l.loggedAtEpochMs.toInt)] := rfl
  unfold ofJson?
  rw [fields]
  simp [Field.required, Json.asString?]

theorem DropTarget.ofJson?_toJson (t : DropTarget) : ofJson? t.toJson = some t := by
  cases t with
  | rootStart => rfl
  | rootEnd => rfl
  | relative target position => cases position <;> rfl

theorem RunState.ofJson?_toJson (s : RunState) : ofJson? s.toJson = some s := by
  have fields : s.toJson.fields? fieldNames = some
      [.given (.string s.status.name), .given (.ofOption .string s.activeStepId),
        .given (.ofOption (fun ms : UInt64 => .nat ms.toNat) s.remainingMs), .given (.nat s.elapsedMs.toNat),
        .given (.ofOption (fun o : RunOutcome => .string o.name) s.lastOutcome)] := rfl
  have active : (Field.given (.ofOption .string s.activeStepId)).nullable Json.asString? = some s.activeStepId :=
    Field.nullable_ofOption Json.string (fun _ h => by cases h) (fun _ => rfl) s.activeStepId
  have remaining := Field.nullable_ofOption (fun ms : UInt64 => .nat ms.toNat) (fun _ h => by cases h)
    Json.asUInt64?_nat s.remainingMs
  have outcome := Field.nullable_ofOption (fun o : RunOutcome => .string o.name) (fun _ h => by cases h)
    (fun o => (Json.oneOf?_string RunOutcome.names .strict o.name).trans (RunOutcome.lookup_name o)) s.lastOutcome
  unfold ofJson?
  rw [fields]
  simp [Field.required, RunStatus.lookup_name, active, remaining, outcome]

end StepTimer
