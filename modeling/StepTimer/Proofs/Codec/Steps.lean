/-
Steps that are written are read back, and steps that are read have finite amounts. Both go by the
recursion of the writer or the reader; what is between them is said once for each kind of step.
-/
import StepTimer.Proofs.Codec.Fields
import StepTimer.Proofs.Codec.Numbers
import StepTimer.Proofs.Step.Settings

namespace StepTimer

open Json (Field)

/-- The amounts are finite numbers. -/
def AreFinite (amounts : List Double) : Prop := ∀ x ∈ amounts, x.isFinite = true

theorem areFinite_append {xs ys : List Double} : AreFinite (xs ++ ys) ↔ AreFinite xs ∧ AreFinite ys := by
  simp only [AreFinite, List.mem_append]
  exact ⟨fun h => ⟨fun x hx => h x (.inl hx), fun x hx => h x (.inr hx)⟩, fun h x hx => hx.elim (h.1 x) (h.2 x)⟩

theorem areFinite_singleton {x : Double} : AreFinite [x] ↔ x.isFinite = true := by simp [AreFinite]

/-! ## What a written step says of its fields -/

/-- What a written sound says of its fields. -/
def SoundSpec.fields (s : SoundSpec) : List Field :=
  [.given (.string s.source.name), .given (.string s.label), .ofOption .string s.url]

/-- What a written action says of the fields of its kind. -/
def Action.fields : Action → List Field
  | wait amount unit => [.given amount.toJson, .given (.string unit.name)]
  | waitUntil time half => [.given (.string time), .given (.string half.name)]
  | playSound sound => sound.fields
  | playSoundUntil sound => sound.fields
  | notify title body => [.given (.string title), .ofOption .string body]
  | unknown => []

/-- What a written block says of the fields of its kind. -/
def Frame.fields (children : Json) : Frame → List Field
  | notifyUntil alert =>
    [.given (.string alert.title), .ofOption .string alert.body] ++ alert.sound.fields
      ++ [.ofOption (fun ms : UInt64 => .nat ms.toNat) alert.timeoutMs, .given alert.interval.toJson, .given children]
  | loop count => [.given count.toJson, .given children]

/-- The members of a written step that stand before those of its kind. -/
def Step.head (id : StepId) (tag : KindTag) : List (String × Json) :=
  [("id", .string id), ("type", .string tag.name)]

theorem Action.namedFields?_members (id : StepId) (a : Action) :
    Json.namedFields? (StepKind.action a).tag.fieldNames (Step.head id (StepKind.action a).tag ++ a.members) =
      some a.fields := by
  cases a with
  | playSound sound => rcases sound with ⟨_, _, _ | _⟩ <;> rfl
  | playSoundUntil sound => rcases sound with ⟨_, _, _ | _⟩ <;> rfl
  | notify title body => rcases body with _ | _ <;> rfl
  | _ => rfl

theorem Frame.namedFields?_members (id : StepId) (f : Frame) (children : Json) :
    Json.namedFields? (StepKind.block f []).tag.fieldNames
      (Step.head id (StepKind.block f []).tag ++ (f.members ++ [("children", children)])) =
        some (f.fields children) := by
  cases f with
  | notifyUntil alert =>
    obtain ⟨title, body, ⟨source, label, url⟩, timeout, interval⟩ := alert
    rcases body with _ | _ <;> rcases url with _ | _ <;> rcases timeout with _ | _ <;> rfl
  | loop count => rfl

/-! ### The names of the members -/

/-- A field of a kind is not one of the two that all steps have. -/
theorem KindTag.not_mem_fieldNames (tag : KindTag) : ∀ name ∈ ["id", "type"], name ∉ tag.fieldNames := by
  cases tag <;> decide

theorem Json.mem_optionalMember {α : Type} {name : String} {write : α → Json} {o : Option α} {m : String × Json}
    (h : m ∈ optionalMember name write o) : m.1 = name := by
  rcases o with _ | a
  · cases h
  · rw [List.mem_singleton.1 h]

theorem SoundSpec.members_names (s : SoundSpec) : ∀ m ∈ s.members, m.1 ∈ fieldNames := by
  intro m hm
  simp only [members, List.mem_append, List.mem_cons, List.not_mem_nil, or_false] at hm
  rcases hm with (rfl | rfl) | hm
  · simp [fieldNames]
  · simp [fieldNames]
  · rw [Json.mem_optionalMember hm]; decide

theorem Action.members_names (a : Action) : ∀ m ∈ a.members, m.1 ∈ (StepKind.action a).tag.fieldNames := by
  cases a with
  | playSound sound => exact sound.members_names
  | playSoundUntil sound => exact sound.members_names
  | notify title body =>
    intro m hm
    show m.1 ∈ KindTag.notify.fieldNames
    rcases List.mem_cons.1 hm with rfl | hm
    · simp [KindTag.fieldNames]
    · rw [Json.mem_optionalMember hm]; decide
  | _ => simp [members, StepKind.tag, KindTag.fieldNames]

/-- The children are the last field of a block; the members of its settings have the other names. -/
theorem Frame.members_names (f : Frame) : ∀ m ∈ f.members, m.1 ∈ (StepKind.block f []).tag.fieldNames.dropLast := by
  cases f with
  | notifyUntil alert =>
    intro m hm
    show m.1 ∈ KindTag.notifyUntil.fieldNames.dropLast
    simp only [members, List.mem_append, List.mem_cons, List.not_mem_nil, or_false] at hm
    rcases hm with (((rfl | hm) | hm) | hm) | rfl
    · simp [KindTag.fieldNames]
    · rw [Json.mem_optionalMember hm]; decide
    · have sound : SoundSpec.fieldNames ⊆ KindTag.notifyUntil.fieldNames.dropLast := by decide
      exact sound (alert.sound.members_names m hm)
    · rw [Json.mem_optionalMember hm]; decide
    · simp [KindTag.fieldNames]
  | loop count => simp [members, StepKind.tag, KindTag.fieldNames]

theorem Frame.blockMembers_names (f : Frame) (children : Json) :
    ∀ m ∈ f.members ++ [("children", children)], m.1 ∈ (StepKind.block f []).tag.fieldNames := by
  intro m hm
  rcases List.mem_append.1 hm with hm | hm
  · exact List.dropLast_subset _ (f.members_names m hm)
  · rw [List.mem_singleton.1 hm]
    cases f with
    | notifyUntil alert => exact (by decide : "children" ∈ KindTag.notifyUntil.fieldNames)
    | loop count => exact (by decide : "children" ∈ KindTag.loop.fieldNames)

/-! ## Writing and reading back -/

namespace StepKind

theorem optional_string (o : Option String) : (Field.ofOption Json.string o).optional Json.asString? = some o :=
  Field.optional_ofOption Json.string (fun _ h => by cases h) (fun _ => rfl) o

theorem optional_uint64 (o : Option UInt64) :
    (Field.ofOption (fun ms : UInt64 => .nat ms.toNat) o).optional Json.asUInt64? = some o :=
  Field.optional_ofOption _ (fun _ h => by cases h) Json.asUInt64?_nat o

theorem ofFields?_action (a : Action) (h : AreFinite a.amounts) (children : Option (List Step)) :
    ofFields? children (action a).tag a.fields = some (action a) := by
  cases a with
  | wait amount unit =>
    have finite := Json.asDouble?_toJson (areFinite_singleton.1 h)
    simp [ofFields?, tag, Action.fields, Field.required, finite, DurationUnit.lookup_name]
  | waitUntil time half =>
    simp [ofFields?, tag, Action.fields, Field.required, Json.asString?, Meridiem.lookup_name]
  | playSound sound =>
    simp [ofFields?, tag, Action.fields, SoundSpec.fields, SoundSpec.ofFields?_written]
  | playSoundUntil sound =>
    simp [ofFields?, tag, Action.fields, SoundSpec.fields, SoundSpec.ofFields?_written]
  | notify title body =>
    simp [ofFields?, tag, Action.fields, Field.required, Json.asString?, optional_string]
  | unknown => rfl

theorem ofFields?_block (f : Frame) (h : AreFinite f.amounts) (written : Json) (children : List Step) :
    ofFields? (some children) (block f []).tag (f.fields written) = some (block f children) := by
  cases f with
  | notifyUntil alert =>
    have finite := Json.asDouble?_toJson (areFinite_singleton.1 h)
    simp [ofFields?, tag, Frame.fields, SoundSpec.fields, Field.required, Field.orDefault, Json.asString?,
      SoundSpec.ofFields?_written, optional_string, optional_uint64, finite]
  | loop count =>
    simp [ofFields?, tag, Frame.fields, Field.required, RepeatCount.ofJson?_toJson]

end StepKind

namespace Step

/-- A step is read from its members when its kind is. -/
theorem ofJson?_object {id : StepId} {tag : KindTag} {members : List (String × Json)} {kind : StepKind}
    (names : ∀ m ∈ members, m.1 ∈ tag.fieldNames)
    (h : StepKind.ofMembers? tag (head id tag ++ members) (childrenOf? (head id tag ++ members)) = some kind) :
    ofJson? (.object (head id tag ++ members)) = some (kind.named id) := by
  have other : ∀ name ∈ ["id", "type"], members.filter (fun m => m.1 = name) = [] := by
    intro name hname
    rw [List.filter_eq_nil_iff]
    intro m hm heq
    have hkind := names m hm
    rw [of_decide_eq_true heq] at hkind
    exact tag.not_mem_fieldNames name hname hkind
  have fields : Json.namedFields? ["id", "type"] (head id tag ++ members) =
      some [.given (.string id), .given (.string tag.name)] := by
    have hid : members.filter (fun m => m.1 = "id") = [] := other _ (by decide)
    have htype : members.filter (fun m => m.1 = "type") = [] := other _ (by decide)
    simp [Json.namedFields?, Json.occursOnce, Json.memberField, head, hid, htype, List.lookup_cons]
  rw [ofJson?, fields]
  simp [Field.required, Json.asString?, KindTag.ofJson?, KindTag.ofName_name, h]

theorem childrenOf?_append {members rest : List (String × Json)} (h : ∀ m ∈ members, m.1 ≠ "children") :
    childrenOf? (members ++ rest) = childrenOf? rest := by
  induction members with
  | nil => rfl
  | cons m members ih =>
    rw [List.cons_append, childrenOf?, if_neg (h m (List.mem_cons_self ..))]
    exact ih fun m hm => h m (List.mem_cons_of_mem _ hm)

theorem childrenOf?_block (id : StepId) (tag : KindTag) (f : Frame) (children : Json) :
    childrenOf? (head id tag ++ (f.members ++ [("children", children)])) = itemsOf? children := by
  have names : ∀ m ∈ f.members, m.1 ≠ "children" := by
    intro m hm heq
    have hlast := f.members_names m hm
    rw [heq] at hlast
    cases f with
    | notifyUntil alert => exact absurd hlast (by decide : "children" ∉ KindTag.notifyUntil.fieldNames.dropLast)
    | loop count => exact absurd hlast (by decide : "children" ∉ KindTag.loop.fieldNames.dropLast)
  rw [childrenOf?_append (by simp [head]), childrenOf?_append names]
  simp [childrenOf?]

mutual

/-- A step with finite amounts is read back as it was written. -/
theorem ofJson?_toJson : ∀ s : Step, AreFinite s.amounts → ofJson? s.toJson = some s
  | leaf id a, h => by
    rw [amounts_leaf] at h
    show ofJson? (.object (head id (StepKind.action a).tag ++ a.members)) = some ((StepKind.action a).named id)
    refine ofJson?_object a.members_names ?_
    unfold StepKind.ofMembers?
    rw [a.namedFields?_members]
    exact StepKind.ofFields?_action a h _
  | block id f children, h => by
    rw [amounts_block, areFinite_append] at h
    show ofJson? (.object (head id (StepKind.block f []).tag ++
      (f.members ++ [("children", .array (listToJson children))]))) = some ((StepKind.block f children).named id)
    refine ofJson?_object (f.blockMembers_names _) ?_
    rw [childrenOf?_block]
    show StepKind.ofMembers? _ _ (allOf? (listToJson children)) = _
    rw [allOf?_listToJson children h.2]
    unfold StepKind.ofMembers?
    rw [f.namedFields?_members]
    exact StepKind.ofFields?_block f h.1 _ children

theorem allOf?_listToJson : ∀ steps : List Step, AreFinite (amountsOf steps) → allOf? (listToJson steps) = some steps
  | [], _ => rfl
  | s :: rest, h => by
    rw [amountsOf_cons, areFinite_append] at h
    rw [listToJson, allOf?, ofJson?_toJson s h.1, allOf?_listToJson rest h.2]

end

end Step

/-! ## What is read is finite -/

theorem Json.Field.isFinite_of_required {f : Field} {x : Double} (held : ∀ j, f = .given j → j.IsHeld)
    (h : f.required asDouble? = some x) : x.isFinite = true := by
  cases f with
  | given j => exact isFinite_asDouble? (held j rfl) h
  | missing => cases h
  | cut => cases h

theorem Json.Field.isFinite_of_orDefault {f : Field} {x : Double} (held : ∀ j, f = .given j → j.IsHeld)
    (h : f.orDefault .zero asDouble? = some x) : x.isFinite = true := by
  cases f with
  | given j => exact isFinite_asDouble? (held j rfl) h
  | missing => cases h; decide
  | cut => cases h; decide

/-- A kind that is read from fields that the data format holds has finite amounts, if the children do. -/
theorem StepKind.finite_of_ofFields? {children : Option (List Step)} {tag : KindTag} {fs : List Field}
    {kind : StepKind} (id : StepId) (held : ∀ j, Field.given j ∈ fs → j.IsHeld)
    (hc : ∀ steps, children = some steps → AreFinite (Step.amountsOf steps))
    (h : ofFields? children tag fs = some kind) : AreFinite (kind.named id).amounts := by
  unfold ofFields? at h
  split at h <;>
    simp only [Option.bind_eq_bind, Option.bind_eq_some_iff, Option.map_eq_some_iff, Option.pure_def,
      Option.some.injEq, reduceCtorEq] at h
  case h_1 amount unit =>
    obtain ⟨x, hx, _, -, rfl⟩ := h
    simp only [named, Step.amounts_leaf, Action.amounts, areFinite_singleton]
    refine Field.isFinite_of_required (fun j hj => held j ?_) hx
    simp [hj]
  case h_6 interval _ =>
    obtain ⟨title, -, body, -, sound, -, timeout, -, x, hx, steps, hsteps, rfl⟩ := h
    simp only [named, Step.amounts_block, Frame.amounts, areFinite_append, areFinite_singleton]
    refine ⟨Field.isFinite_of_orDefault (fun j hj => held j ?_) hx, hc steps hsteps⟩
    simp [hj]
  case h_7 =>
    obtain ⟨count, -, steps, hsteps, rfl⟩ := h
    simpa [named, Frame.amounts] using hc steps hsteps
  case h_2 => obtain ⟨time, -, half, -, rfl⟩ := h; simp [named, Action.amounts, AreFinite]
  case h_3 => obtain ⟨sound, -, rfl⟩ := h; simp [named, Action.amounts, AreFinite]
  case h_4 => obtain ⟨sound, -, rfl⟩ := h; simp [named, Action.amounts, AreFinite]
  case h_5 => obtain ⟨title, -, body, -, rfl⟩ := h; simp [named, Action.amounts, AreFinite]
  case h_8 => subst h; simp [named, Action.amounts, AreFinite]

namespace Step

mutual

/-- A step that is read from a value of the data format has finite amounts. -/
theorem finite_of_ofJson? : ∀ (j : Json) {s : Step}, j.IsHeld → ofJson? j = some s → AreFinite s.amounts
  | .object members, s, held, h => by
    rw [ofJson?] at h
    obtain ⟨fields, -, h⟩ := Option.bind_eq_some_iff.1 h
    split at h
    · simp only [Option.bind_eq_bind, Option.bind_eq_some_iff, Option.pure_def, Option.some.injEq] at h
      obtain ⟨id, -, tag, -, kind, hkind, rfl⟩ := h
      obtain ⟨fs, hfs, hkind⟩ := Option.bind_eq_some_iff.1 hkind
      exact StepKind.finite_of_ofFields? id (fun j hj => Json.held_of_namedFields? held hfs hj)
        (fun steps hsteps => finite_of_childrenOf? members (fun m hm => held.member hm) hsteps) hkind
    · cases h
  | .null, _, _, h => by simp [ofJson?] at h
  | .bool _, _, _, h => by simp [ofJson?] at h
  | .number _, _, _, h => by simp [ofJson?] at h
  | .string _, _, _, h => by simp [ofJson?] at h
  | .array _, _, _, h => by simp [ofJson?] at h

theorem finite_of_childrenOf? : ∀ (members : List (String × Json)) {steps : List Step},
    (∀ m ∈ members, m.2.IsHeld) → childrenOf? members = some steps → AreFinite (amountsOf steps)
  | [], steps, _, h => by
    rw [childrenOf?] at h; cases h; simp [AreFinite]
  | (name, j) :: rest, steps, held, h => by
    rw [childrenOf?] at h
    split at h
    · exact finite_of_itemsOf? j (held _ (List.mem_cons_self ..)) h
    · exact finite_of_childrenOf? rest (fun m hm => held m (List.mem_cons_of_mem _ hm)) h

theorem finite_of_itemsOf? : ∀ (j : Json) {steps : List Step},
    j.IsHeld → itemsOf? j = some steps → AreFinite (amountsOf steps)
  | .array items, steps, held, h => finite_of_allOf? items (fun j hj => held.item hj) (by rwa [itemsOf?] at h)
  | .null, _, _, h => by simp [itemsOf?] at h
  | .bool _, _, _, h => by simp [itemsOf?] at h
  | .number _, _, _, h => by simp [itemsOf?] at h
  | .string _, _, _, h => by simp [itemsOf?] at h
  | .object _, _, _, h => by simp [itemsOf?] at h

theorem finite_of_allOf? : ∀ (js : List Json) {steps : List Step},
    (∀ j ∈ js, j.IsHeld) → allOf? js = some steps → AreFinite (amountsOf steps)
  | [], steps, _, h => by rw [allOf?] at h; cases h; simp [AreFinite]
  | j :: js, steps, held, h => by
    rw [allOf?] at h
    split at h
    next s rest hs hrest =>
      cases h
      rw [amountsOf_cons, areFinite_append]
      exact ⟨finite_of_ofJson? j (held j (List.mem_cons_self ..)) hs,
        finite_of_allOf? js (fun j hj => held j (List.mem_cons_of_mem _ hj)) hrest⟩
    next => cases h

end

end Step

end StepTimer
