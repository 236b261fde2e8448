/-
The text of timers. The steps of a timer are nested in its text twice as deeply as they are nested in
each other, so that the text is read back when no step stands on a level deeper than the sixty-second.
-/
import StepTimer.Proofs.Codec.RoundTrip
import StepTimer.Proofs.Json.Written
import StepTimer.Store.Folder

namespace StepTimer

namespace Json

open Draft

/-! ## Known members -/

/-- A written value that a reader of a form takes as a value of its own. -/
def Suits (shape : Shape) (j : Json) : Prop := ∀ depth, settleAs shape (drafted depth j) = (drafted depth j).settle

variable {shape : Shape} {fields : List (String × Shape)}

theorem suits_value (j : Json) : Suits .value j := fun depth => by
  cases drafted depth j <;> rfl

theorem mapM_settleAs (depth : Nat) {items : List Json} (h : ∀ j ∈ items, Suits shape j) :
    (draftedItems depth items).mapM (settleAs shape) = settleItems (draftedItems depth items) := by
  induction items with
  | nil => rfl
  | cons j items ih =>
    rw [draftedItems, List.mapM_cons, settleItems, h j (List.mem_cons_self ..) depth,
      ih fun j hj => h j (List.mem_cons_of_mem _ hj)]
    rfl

theorem suits_list {items : List Json} (h : ∀ j ∈ items, Suits shape j) : Suits (.list shape) (.array items) := by
  intro depth
  rw [drafted]
  split
  · exact congrArg (Option.map Json.array) (mapM_settleAs _ h)
  · rfl

theorem settleField_of_lookup {name : String} (h : fields.lookup name = some shape) (d : Draft) :
    settleField fields name d = (settleAs shape d).map fun j => some (name, j) := by
  induction fields with
  | nil => cases h
  | cons field fields ih =>
    obtain ⟨known, first⟩ := field
    rw [settleField]
    by_cases hk : known = name
    · subst hk
      rw [List.lookup_cons_self] at h
      cases h
      rw [if_pos rfl]
    · have hne : (name == known) = false := by simpa using Ne.symm hk
      rw [List.lookup_cons, hne] at h
      rw [if_neg hk]
      exact ih h

/-- The reading of a member of a record. -/
theorem mapM_settleField (depth : Nat) {members : List (String × Json)}
    (h : ∀ m ∈ members, ∃ shape, fields.lookup m.1 = some shape ∧ Suits shape m.2) :
    ((draftedMembers depth members).mapM fun (name, d) => do
      let name ← name
      settleField fields name d) = (settleMembers (draftedMembers depth members)).map (List.map some) := by
  induction members with
  | nil => rfl
  | cons m members ih =>
    obtain ⟨name, j⟩ := m
    obtain ⟨shape, known, suits⟩ := h (name, j) (List.mem_cons_self ..)
    have rest := ih fun m hm => h m (List.mem_cons_of_mem _ hm)
    rw [draftedMembers, List.mapM_cons, settleMembers, rest]
    simp only [Option.bind_eq_bind, Option.bind_some, settleField_of_lookup known, suits depth]
    cases (drafted depth j).settle with
    | none => rfl
    | some j => cases settleMembers (draftedMembers depth members) <;> rfl

/-- A record suits its form when it has known members only and they suit theirs. -/
theorem suits_record {members : List (String × Json)}
    (h : ∀ m ∈ members, ∃ shape, fields.lookup m.1 = some shape ∧ Suits shape m.2) :
    Suits (.record fields) (.object members) := by
  intro depth
  rw [drafted]
  split
  · rw [settleAs, mapM_settleField _ h, settle, Option.map_map]
    congr 1
    funext members
    simp
  · rfl

/-- A text is decoded when its value suits the form and is not nested too deeply. -/
theorem settleAs_renderIndented {j : Json} (numbers : ∀ n ∈ j.numbers, n.ReadsBack) (suits : Suits shape j) :
    (parse j.renderIndented).settleAs shape = if j.nesting ≤ depthMax then some j else none := by
  rw [parse_renderIndented j numbers, suits 0, settle_drafted 0 (by decide), Nat.zero_add]

end Json

/-! ## Plain members -/

/-- A written value that is no list and no record, with its number, if it is one, among the integers of the
data format or the given amounts. -/
inductive Json.IsPlain (amounts : List Double) : Json → Prop
  | string (s : String) : IsPlain amounts (.string s)
  | bool (b : Bool) : IsPlain amounts (.bool b)
  | int (i : Int) (low : -0x8000000000000000 ≤ i) (high : i ≤ 0xFFFFFFFFFFFFFFFF) : IsPlain amounts (.int i)
  | amount (x : Double) (h : x ∈ amounts) : IsPlain amounts x.toJson

namespace Json

/-- A value whose numbers are all read back. -/
def IsReadBack (j : Json) : Prop := ∀ n ∈ j.numbers, n.ReadsBack

variable {amounts : List Double} {members : List (String × Json)}

theorem IsPlain.nesting {j : Json} (h : j.IsPlain amounts) : j.nesting = 0 := by
  cases h with
  | amount x _ => unfold Double.toJson; split <;> rfl
  | _ => rfl

theorem IsPlain.isReadBack {j : Json} (h : j.IsPlain amounts) (ha : ∀ x ∈ amounts, (Number.double x).ReadsBack) :
    j.IsReadBack := by
  intro n hn
  cases h with
  | string s => cases hn
  | bool b => cases hn
  | int i low high =>
    rw [List.mem_singleton.1 hn]
    exact Number.readsBack_int low high
  | amount x hx =>
    unfold Double.toJson at hn
    split at hn
    · rw [List.mem_singleton.1 hn]; exact ha x hx
    · cases hn

theorem isReadBack_array {items : List Json} : (array items).IsReadBack ↔ ∀ j ∈ items, j.IsReadBack := by
  constructor
  · intro h j hj n hn
    exact h n (mem_numbersIn.2 ⟨j, hj, hn⟩)
  · intro h n hn
    obtain ⟨j, hj, hn⟩ := mem_numbersIn.1 hn
    exact h j hj n hn

theorem isReadBack_object : (object members).IsReadBack ↔ ∀ m ∈ members, m.2.IsReadBack := by
  constructor
  · intro h m hm n hn
    exact h n (mem_numbersOf.2 ⟨m, hm, hn⟩)
  · intro h n hn
    obtain ⟨m, hm, hn⟩ := mem_numbersOf.1 hn
    exact h m hm n hn

theorem nestingIn_le {items : List Json} {k : Nat} : nestingIn items ≤ k ↔ ∀ j ∈ items, j.nesting ≤ k := by
  induction items with
  | nil => simp [nestingIn]
  | cons j items ih => rw [nestingIn, Nat.max_le, ih, List.forall_mem_cons]

theorem nestingOf_le {k : Nat} : nestingOf members ≤ k ↔ ∀ m ∈ members, m.2.nesting ≤ k := by
  induction members with
  | nil => simp [nestingOf]
  | cons m members ih => rw [nestingOf, Nat.max_le, ih, List.forall_mem_cons]

theorem nestingOf_append (members rest : List (String × Json)) :
    nestingOf (members ++ rest) = max (nestingOf members) (nestingOf rest) := by
  induction members with
  | nil => simp [nestingOf]
  | cons m members ih => rw [List.cons_append, nestingOf, nestingOf, ih, Nat.max_assoc]

theorem nestingOf_plain (h : ∀ m ∈ members, m.2.IsPlain amounts) : nestingOf members = 0 :=
  Nat.le_zero.1 (nestingOf_le.2 fun m hm => Nat.le_of_eq (h m hm).nesting)

theorem isPlain_nat (n : UInt64) : (nat n.toNat).IsPlain amounts := by
  have hn := n.toNat_lt
  exact .int _ (by omega) (by omega)

theorem isPlain_optionalMember {α : Type} {name : String} {write : α → Json} (h : ∀ a, (write a).IsPlain amounts)
    (o : Option α) : ∀ m ∈ optionalMember name write o, m.2.IsPlain amounts := by
  intro m hm
  rcases o with _ | a
  · cases hm
  · rw [List.mem_singleton.1 hm]; exact h a

end Json

theorem SoundSpec.isPlain_members (amounts : List Double) (s : SoundSpec) : ∀ m ∈ s.members, m.2.IsPlain amounts := by
  intro m hm
  simp only [members, List.mem_append, List.mem_cons, List.not_mem_nil, or_false] at hm
  rcases hm with (rfl | rfl) | hm
  · exact .string _
  · exact .string _
  · exact Json.isPlain_optionalMember .string _ m hm

theorem Action.isPlain_members (a : Action) : ∀ m ∈ a.members, m.2.IsPlain a.amounts := by
  intro m hm
  cases a with
  | wait amount unit =>
    simp only [members, List.mem_cons, List.not_mem_nil, or_false] at hm
    rcases hm with rfl | rfl
    · exact .amount amount (List.mem_singleton_self _)
    · exact .string _
  | waitUntil time half =>
    simp only [members, List.mem_cons, List.not_mem_nil, or_false] at hm
    rcases hm with rfl | rfl <;> exact .string _
  | playSound sound => exact sound.isPlain_members _ m hm
  | playSoundUntil sound => exact sound.isPlain_members _ m hm
  | notify title body =>
    rcases List.mem_cons.1 hm with rfl | hm
    · exact .string _
    · exact Json.isPlain_optionalMember .string _ m hm
  | unknown => cases hm

theorem RepeatCount.isPlain_toJson (amounts : List Double) (c : RepeatCount) : c.toJson.IsPlain amounts := by
  cases c with
  | infinite => exact .int _ (by decide) (by decide)
  | times n =>
    have hn := n.toNat_lt
    refine .int _ ?_ ?_
    · show (-0x8000000000000000 : Int) ≤ n.toNat
      omega
    · show (n.toNat : Int) ≤ 0xFFFFFFFFFFFFFFFF
      omega

theorem Frame.isPlain_members (f : Frame) : ∀ m ∈ f.members, m.2.IsPlain f.amounts := by
  intro m hm
  cases f with
  | notifyUntil alert =>
    simp only [members, List.mem_append, List.mem_cons, List.not_mem_nil, or_false] at hm
    rcases hm with (((rfl | hm) | hm) | hm) | rfl
    · exact .string _
    · exact Json.isPlain_optionalMember .string _ m hm
    · exact alert.sound.isPlain_members _ m hm
    · exact Json.isPlain_optionalMember Json.isPlain_nat _ m hm
    · exact .amount alert.interval (List.mem_singleton_self _)
  | loop count =>
    rw [List.mem_singleton.1 hm]
    exact count.isPlain_toJson _

theorem LogEntry.isPlain_members (l : LogEntry) :
    ∃ members, l.toJson = .object members ∧ ∀ m ∈ members, m.2.IsPlain [] ∧ m.1 ∈ fieldNames := by
  refine ⟨_, rfl, fun m hm => ?_⟩
  simp only [List.mem_cons, List.not_mem_nil, or_false] at hm
  rcases hm with rfl | rfl | rfl | rfl
  · exact ⟨.string _, by simp [fieldNames]⟩
  · exact ⟨.string _, by simp [fieldNames]⟩
  · exact ⟨Json.isPlain_nat _, by simp [fieldNames]⟩
  · have low := l.loggedAtEpochMs.le_toInt
    have high := l.loggedAtEpochMs.toInt_lt
    exact ⟨.int _ (by omega) (by omega), by simp [fieldNames]⟩

/-! ## The levels of steps -/

namespace Step

mutual

/-- The number of levels that a step takes up: its own and those of the steps below it. -/
def levels : Step → Nat
  | leaf _ _ => 1
  | block _ _ children => 1 + levelsOf children

/-- The number of levels of a list of steps. -/
def levelsOf : List Step → Nat
  | [] => 0
  | s :: rest => max (levels s) (levelsOf rest)

end

theorem isPlain_head (amounts : List Double) (id : StepId) (tag : KindTag) :
    ∀ m ∈ head id tag, m.2.IsPlain amounts := by
  intro m hm
  simp only [head, List.mem_cons, List.not_mem_nil, or_false] at hm
  rcases hm with rfl | rfl <;> exact .string _

theorem toJson_leaf (id : StepId) (a : Action) :
    (leaf id a).toJson = .object (head id (StepKind.action a).tag ++ a.members) := rfl

theorem toJson_block (id : StepId) (f : Frame) (children : List Step) :
    (block id f children).toJson = .object (head id (StepKind.block f []).tag ++
      (f.members ++ [("children", .array (listToJson children))])) := rfl

mutual

/-- Each level of steps makes one or two levels of text. -/
theorem nesting_toJson : ∀ s : Step, 2 * s.levels ≤ s.toJson.nesting + 1 ∧ s.toJson.nesting ≤ 2 * s.levels
  | leaf id a => by
    have plain := Json.nestingOf_plain a.isPlain_members
    have plainHead := Json.nestingOf_plain (isPlain_head [] id (StepKind.action a).tag)
    rw [toJson_leaf, Json.nesting, Json.nestingOf_append, plain, plainHead, levels]
    omega
  | block id f children => by
    have below := nestingIn_listToJson children
    have plain := Json.nestingOf_plain f.isPlain_members
    have plainHead := Json.nestingOf_plain (isPlain_head [] id (StepKind.block f []).tag)
    rw [toJson_block, Json.nesting, Json.nestingOf_append, Json.nestingOf_append, plain, plainHead, Json.nestingOf,
      Json.nestingOf, Json.nesting, levels]
    omega

theorem nestingIn_listToJson : ∀ steps : List Step,
    2 * levelsOf steps ≤ Json.nestingIn (listToJson steps) + 1 ∧ Json.nestingIn (listToJson steps) ≤ 2 * levelsOf steps
  | [] => by simp [listToJson, Json.nestingIn, levelsOf]
  | s :: rest => by
    have one := nesting_toJson s
    have others := nestingIn_listToJson rest
    rw [listToJson, Json.nestingIn, levelsOf]
    omega

end

mutual

/-- The numbers of a written step are integers of the format and its amounts. -/
theorem isReadBack_toJson : ∀ s : Step, (∀ x ∈ s.amounts, (Number.double x).ReadsBack) → s.toJson.IsReadBack
  | leaf id a, h => by
    rw [amounts_leaf] at h
    rw [toJson_leaf, Json.isReadBack_object]
    intro m hm
    rcases List.mem_append.1 hm with hm | hm
    · exact (isPlain_head _ id _ m hm).isReadBack h
    · exact (a.isPlain_members m hm).isReadBack h
  | block id f children, h => by
    rw [amounts_block] at h
    have own : ∀ x ∈ f.amounts, (Number.double x).ReadsBack := fun x hx => h x (List.mem_append_left _ hx)
    have below := isReadBack_listToJson children fun x hx => h x (List.mem_append_right _ hx)
    rw [toJson_block, Json.isReadBack_object]
    intro m hm
    rcases List.mem_append.1 hm with hm | hm
    · exact (isPlain_head _ id _ m hm).isReadBack own
    · rcases List.mem_append.1 hm with hm | hm
      · exact (f.isPlain_members m hm).isReadBack own
      · rw [List.mem_singleton.1 hm]
        exact Json.isReadBack_array.2 below

theorem isReadBack_listToJson : ∀ steps : List Step, (∀ x ∈ amountsOf steps, (Number.double x).ReadsBack) →
    ∀ j ∈ listToJson steps, j.IsReadBack
  | [], _ => by
    intro j hj
    cases hj
  | s :: rest, h => by
    rw [amountsOf_cons] at h
    have one := isReadBack_toJson s fun x hx => h x (List.mem_append_left _ hx)
    have others := isReadBack_listToJson rest fun x hx => h x (List.mem_append_right _ hx)
    rw [listToJson]
    exact List.forall_mem_cons.2 ⟨one, others⟩

end

end Step

/-! ## The text of timers -/

theorem LogEntry.suits (l : LogEntry) : Json.Suits shape l.toJson := by
  obtain ⟨members, hl, hm⟩ := l.isPlain_members
  rw [hl]
  refine Json.suits_record fun m hmem => ⟨.value, ?_, Json.suits_value _⟩
  have known := (hm m hmem).2
  simp only [fieldNames, List.mem_cons, List.not_mem_nil, or_false] at known
  rcases known with h | h | h | h <;> rw [h] <;> rfl

namespace Timer

/-- A member that a timer is written with: one that is plain, the steps, or the laps. -/
theorem mem_members {t : Timer} {m : String × Json} (h : m ∈ t.members) :
    (m.2.IsPlain [] ∧ m.1 ∈ ["id", "name", "mode", "locked"]) ∨ m = ("steps", .array (Step.listToJson t.steps)) ∨
      m = ("logs", .array (t.logs.map LogEntry.toJson)) := by
  rcases List.mem_append.1 h with h | h
  · simp only [List.mem_cons, List.not_mem_nil, or_false] at h
    rcases h with rfl | rfl | rfl | rfl | rfl
    · exact .inl ⟨.string _, by simp⟩
    · exact .inl ⟨.string _, by simp⟩
    · exact .inr (.inl rfl)
    · exact .inl ⟨.string _, by simp⟩
    · exact .inl ⟨.bool _, by simp⟩
  · split at h
    · cases h
    · exact .inr (.inr (List.mem_singleton.1 h))

theorem suits (t : Timer) : Json.Suits shape t.toJson := by
  refine Json.suits_record fun m hm => ?_
  rcases mem_members hm with ⟨-, known⟩ | rfl | rfl
  · refine ⟨.value, ?_, Json.suits_value _⟩
    simp only [List.mem_cons, List.not_mem_nil, or_false] at known
    rcases known with h | h | h | h <;> rw [h] <;> rfl
  · exact ⟨.value, rfl, Json.suits_value _⟩
  · refine ⟨.list LogEntry.shape, rfl, Json.suits_list ?_⟩
    rw [List.forall_mem_map]
    exact fun l _ => l.suits

theorem nesting_logs (logs : List LogEntry) : (Json.array (logs.map LogEntry.toJson)).nesting ≤ 2 := by
  have each : ∀ j ∈ logs.map LogEntry.toJson, j.nesting ≤ 1 := by
    rw [List.forall_mem_map]
    intro l _
    obtain ⟨members, hl, hm⟩ := l.isPlain_members
    rw [hl, Json.nesting, Json.nestingOf_plain fun m hmem => (hm m hmem).1]
  have all := Json.nestingIn_le.2 each
  rw [Json.nesting]
  omega

/-- A timer is written within the nesting of the reader when its steps do not take up too many levels. -/
theorem nesting_toJson_le (t : Timer) : t.toJson.nesting ≤ 126 ↔ Step.levelsOf t.steps ≤ 62 := by
  have steps := Step.nestingIn_listToJson t.steps
  have text : t.toJson.nesting ≤ 126 ↔ ∀ m ∈ t.members, m.2.nesting ≤ 125 := by
    rw [← Json.nestingOf_le, toJson, Json.nesting]
    omega
  rw [text]
  constructor
  · intro h
    have hs := h ("steps", .array (Step.listToJson t.steps)) (by simp [members])
    rw [Json.nesting] at hs
    omega
  · intro h m hm
    rcases mem_members hm with ⟨plain, -⟩ | rfl | rfl
    · rw [plain.nesting]; omega
    · rw [Json.nesting]; omega
    · exact Nat.le_trans (nesting_logs t.logs) (by decide)

theorem isReadBack_toJson (t : Timer) (h : ∀ x ∈ Step.amountsOf t.steps, (Number.double x).ReadsBack) :
    t.toJson.IsReadBack := by
  have none : ∀ x ∈ ([] : List Double), (Number.double x).ReadsBack := fun x hx => by cases hx
  rw [toJson, Json.isReadBack_object]
  intro m hm
  rcases mem_members hm with ⟨plain, -⟩ | rfl | rfl
  · exact plain.isReadBack none
  · exact Json.isReadBack_array.2 (Step.isReadBack_listToJson t.steps h)
  · rw [Json.isReadBack_array, List.forall_mem_map]
    intro l _
    obtain ⟨members, hl, hm⟩ := l.isPlain_members
    rw [hl, Json.isReadBack_object]
    exact fun m hmem => (hm m hmem).1.isReadBack none

end Timer

/-- The deepest level of steps whose text is read back. -/
def levelMax : Nat := 62

/-- The text of timers is decoded to the same timers if no step stands too deep, and not at all otherwise. -/
theorem Folder.decode?_encode (timers : List Timer)
    (h : ∀ t ∈ timers, ∀ x ∈ Step.amountsOf t.steps, x.isFinite = true ∧ (Number.double x).ReadsBack) :
    decode? (encode timers) = if ∀ t ∈ timers, Step.levelsOf t.steps ≤ levelMax then some timers else none := by
  have numbers : (Timer.listToJson timers).IsReadBack := by
    rw [Timer.listToJson, Json.isReadBack_array, List.forall_mem_map]
    exact fun t ht => t.isReadBack_toJson fun x hx => (h t ht x hx).2
  have suits : Json.Suits (.list Timer.shape) (Timer.listToJson timers) := by
    refine Json.suits_list ?_
    rw [List.forall_mem_map]
    exact fun t _ => t.suits
  have fits : (Timer.listToJson timers).nesting ≤ Json.depthMax ↔ ∀ t ∈ timers, Step.levelsOf t.steps ≤ levelMax := by
    have each : (∀ t ∈ timers, Step.levelsOf t.steps ≤ levelMax) ↔
        ∀ j ∈ timers.map Timer.toJson, j.nesting ≤ 126 := by
      rw [List.forall_mem_map]
      exact forall₂_congr fun t _ => t.nesting_toJson_le.symm
    rw [each, ← Json.nestingIn_le, Timer.listToJson, Json.nesting, Json.depthMax]
    omega
  have decoded : Timer.listOfJson? (Timer.listToJson timers) = some timers :=
    Json.listOf?_map fun t ht => t.ofJson?_toJson fun x hx => (h t ht x hx).1
  unfold decode? encode
  rw [Json.settleAs_renderIndented numbers suits]
  simp only [fits]
  split
  · exact decoded
  · rfl

end StepTimer
