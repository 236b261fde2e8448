/-
Written values are read back. What the indented text of a value says, and what becomes of it, goes by the
recursion of the writer: a list or record that is nested too deeply is well-formed text of no value, so a
value is read back exactly when it is not nested more deeply than the reader goes.
-/
import StepTimer.Proofs.Json.Scalars
import StepTimer.Proofs.Codec.Numbers

namespace StepTimer.Json

open Draft Numeral

/-! ## What the text of a value says -/

mutual

/-- What the text of a value says at a depth of nesting. -/
def drafted (depth : Nat) : Json → Draft
  | null => .null
  | bool b => .bool b
  | number n => .number n
  | string s => .string s
  | array items => if depth < depthMax then .array (draftedItems (depth + 1) items) true else .unreadable
  | object members => if depth < depthMax then .object (draftedMembers (depth + 1) members) true else .unreadable

def draftedItems (depth : Nat) : List Json → List Draft
  | [] => []
  | j :: js => drafted depth j :: draftedItems depth js

def draftedMembers (depth : Nat) : List (String × Json) → List (Option String × Draft)
  | [] => []
  | (name, j) :: rest => (some name, drafted depth j) :: draftedMembers depth rest

end

theorem isCut_drafted (depth : Nat) (j : Json) : (drafted depth j).isCut = false := by
  cases j with
  | array items => unfold drafted; split <;> rfl
  | object members => unfold drafted; split <;> rfl
  | _ => rfl

/-! ## Blanks -/

theorem skipSpace_newline (depth : Nat) (cs : List Char) : skipSpace (newline depth ++ cs) = skipSpace cs := by
  unfold newline skipSpace
  rw [List.cons_append, List.dropWhile_cons_of_pos (by decide)]
  induction 2 * depth with
  | zero => rfl
  | succ n ih => rw [List.replicate_succ, List.cons_append, List.dropWhile_cons_of_pos (by decide), ih]

theorem skipSpace_cons {c : Char} (h : isSpace c = false) (cs : List Char) : skipSpace (c :: cs) = c :: cs := by
  unfold skipSpace
  rw [List.dropWhile_cons_of_neg (by simp [h])]

variable {depth : Nat} {rest : List Char} {c : Char} {cs : List Char}

/-- Before a value stand blanks that do not matter. -/
theorem scanValue_blank (fuel depth : Nat) (cs : List Char) :
    scanValue (fuel + 1) depth (' ' :: cs) = scanValue (fuel + 1) depth cs := by
  have blank : skipSpace (' ' :: cs) = skipSpace cs := by
    unfold skipSpace
    rw [List.dropWhile_cons_of_pos (by decide)]
  rw [scanValue, scanValue, blank]

/-! ## Parts -/

/-- What stands before a part of a list or record. -/
def comma (first : Bool) : List Char := if first then [] else [',']

theorem comma_first (b : Bool) (cs : List Char) : comma (true || b) ++ cs = cs := rfl

/-- A text that starts neither with a blank nor with an end. -/
structure Starts (cs : List Char) (c : Char) (rest : List Char) : Prop where
  eq : cs = c :: rest
  space : isSpace c = false
  bracket : c ≠ ']'
  brace : c ≠ '\x7d'

theorem follow_part {close : Char} (first : Bool) (depth : Nat) (hs : isSpace c = false) (hc : c ≠ close)
    (hcomma : close ≠ ',') : follow close first (comma first ++ newline depth ++ c :: cs) = .part (c :: cs) := by
  unfold follow
  cases first with
  | true =>
    rw [comma, if_pos rfl, List.nil_append, skipSpace_newline, skipSpace_cons hs]
    simp [hc]
  | false =>
    rw [comma, if_neg Bool.false_ne_true, List.append_assoc, List.singleton_append, skipSpace_cons (by decide)]
    simp [skipSpace_newline, skipSpace_cons hs, hc, hcomma.symm]

theorem follow_close {close : Char} (first : Bool) (depth : Nat) (hs : isSpace close = false) :
    follow close first (newline depth ++ close :: rest) = .close rest := by
  unfold follow
  rw [skipSpace_newline, skipSpace_cons hs]
  simp

@[simp] theorem length_newline (depth : Nat) : (newline depth).length = 2 * depth + 1 := by simp [newline]

theorem breaks_newline (depth : Nat) (cs : List Char) : Breaks (newline depth ++ cs) := by
  intro c hc
  cases hc
  exact .inr rfl

/-- After a part comes a comma or the line of the end. -/
theorem breaks_comma {α : Type} (items : List α) (text : List Char) (empty : items = [] → text = []) (depth : Nat)
    (cs : List Char) : Breaks (comma (false || items.isEmpty) ++ text ++ newline depth ++ cs) := by
  rcases items with _ | ⟨item, items⟩
  · rw [empty rfl]; exact breaks_newline depth cs
  · intro c hc
    cases hc
    exact .inl rfl

/-! ## Scalars -/

/-- A character that starts a number is no other one. -/
theorem ne_of_starts {d : Char} (h : c = '-' ∨ c.isDigit = true) (hd : d ≠ '-' ∧ d.isDigit = false) : c ≠ d := by
  rintro rfl
  rcases h with h | h
  · exact hd.1 h
  · rw [hd.2] at h; cases h

theorem isSpace_of_starts (h : c = '-' ∨ c.isDigit = true) : isSpace c = false := by
  unfold isSpace
  rw [decide_eq_false (ne_of_starts h (by decide)), decide_eq_false (ne_of_starts h (by decide)),
    decide_eq_false (ne_of_starts h (by decide)), decide_eq_false (ne_of_starts h (by decide))]
  rfl

/-- A number that is read back starts with its sign or a digit. -/
theorem starts_number {n : Number} (h : n.ReadsBack) :
    ∃ c cs, n.render.toList = c :: cs ∧ (c = '-' ∨ c.isDigit = true) := by
  obtain ⟨numeral, hscan, -⟩ := h
  cases ht : n.render.toList with
  | nil => rw [ht] at hscan; cases hscan
  | cons c cs =>
    rw [ht] at hscan
    exact ⟨c, cs, rfl, head_of_scan (by rw [hscan]; rfl)⟩

theorem scanValue_number {n : Number} (h : n.ReadsBack) (hr : Breaks rest) (fuel : Nat) :
    scanValue (fuel + 1) depth (n.render.toList ++ rest) = (.number n, rest) := by
  obtain ⟨c, cs, ht, hc⟩ := starts_number h
  obtain ⟨numeral, hscan, hvalue⟩ := h
  rw [ht] at hscan ⊢
  rw [scanValue, List.cons_append, skipSpace_cons (isSpace_of_starts hc)]
  simp only
  rw [if_neg (ne_of_starts hc (by decide)), if_neg (ne_of_starts hc (by decide))]
  unfold scanScalar
  simp only
  rw [if_neg (ne_of_starts hc (by decide)), if_neg (ne_of_starts hc (by decide)),
    if_neg (ne_of_starts hc (by decide)), if_neg (ne_of_starts hc (by decide)), ← List.cons_append,
    scan_append hr hscan]
  simp only [hvalue, List.nil_append]

theorem indented_starts (depth : Nat) (j : Json) (h : ∀ n ∈ j.numbers, n.ReadsBack) :
    ∃ c cs, Starts (indented depth j) c cs := by
  cases j with
  | null => exact ⟨_, _, rfl, by decide, by decide, by decide⟩
  | bool b => cases b <;> exact ⟨_, _, rfl, by decide, by decide, by decide⟩
  | number n =>
    obtain ⟨c, cs, ht, hc⟩ := starts_number (h n (by simp [numbers]))
    refine ⟨c, cs, ht, ?_, ne_of_starts hc (by decide), ne_of_starts hc (by decide)⟩
    exact isSpace_of_starts hc
  | string s => exact ⟨_, _, rfl, by decide, by decide, by decide⟩
  | array items =>
    unfold indented
    split <;> exact ⟨_, _, rfl, by decide, by decide, by decide⟩
  | object members =>
    unfold indented
    split <;> exact ⟨_, _, rfl, by decide, by decide, by decide⟩

/-! ## Reading written text -/

/-- A list is read when its items are. -/
theorem scanValue_array {fuel : Nat} {items : List Json}
    (h : scanItems fuel (depth + 1) true cs = (draftedItems (depth + 1) items, true, rest)) :
    scanValue (fuel + 1) depth ('[' :: cs) = (drafted depth (.array items), rest) := by
  rw [scanValue, skipSpace_cons (by decide)]
  simp only [h, if_true, drafted]
  split <;> rfl

/-- A record is read when its members are. -/
theorem scanValue_object {fuel : Nat} {members : List (String × Json)}
    (h : scanMembers fuel (depth + 1) true cs = (draftedMembers (depth + 1) members, true, rest)) :
    scanValue (fuel + 1) depth ('\x7b' :: cs) = (drafted depth (.object members), rest) := by
  have notList : '\x7b' ≠ '[' := by decide
  rw [scanValue, skipSpace_cons (by decide)]
  simp only [h, if_neg notList, if_true, drafted]
  split <;> rfl

mutual

/-- The text of a value is read as what it says, whatever comes after it on the line. -/
theorem scanValue_indented (fuel depth k : Nat) {rest : List Char} (hr : Breaks rest) :
    ∀ j : Json, (∀ n ∈ j.numbers, n.ReadsBack) → 2 * (indented k j).length ≤ fuel + 1 →
      scanValue (fuel + 1) depth (indented k j ++ rest) = (drafted depth j, rest)
  | .null, _, _ => rfl
  | .bool true, _, _ => rfl
  | .bool false, _, _ => rfl
  | .number n, h, _ => scanValue_number (h n (by simp [numbers])) hr fuel
  | .string s, _, _ => by
    have text : indented k (.string s) ++ rest = '"' :: (s.toList.flatMap escape ++ '"' :: rest) := by
      show quote s ++ rest = _
      simp [quote]
    have read := scanString_quote s rest
    rw [text, scanValue, skipSpace_cons (by decide)]
    simp [scanScalar, read, drafted]
  | .array [], _, hf => by
    have hf : 2 * 2 ≤ fuel + 1 := hf
    obtain ⟨fuel, rfl⟩ : ∃ f, fuel = f + 1 := ⟨fuel - 1, by omega⟩
    have empty : scanItems (fuel + 1) (depth + 1) true (']' :: rest) = ([], true, rest) := by
      rw [scanItems]; rfl
    exact scanValue_array empty
  | .array (j :: js), h, hf => by
    have text : indented k (.array (j :: js)) = '[' :: (indentedItems (k + 1) (j :: js) ++ newline k ++ [']']) := by
      simp [indented]
    rw [text] at hf ⊢
    simp only [List.length_cons, List.length_append, List.length_nil] at hf
    obtain ⟨fuel, rfl⟩ : ∃ f, fuel = f + 1 := ⟨fuel - 1, by omega⟩
    have items := scanItems_indented fuel (depth + 1) (k + 1) k rest true (j :: js) h (by omega)
    rw [comma_first] at items
    rw [List.cons_append, List.append_assoc, List.singleton_append]
    exact scanValue_array items
  | .object [], _, hf => by
    have hf : 2 * 2 ≤ fuel + 1 := hf
    obtain ⟨fuel, rfl⟩ : ∃ f, fuel = f + 1 := ⟨fuel - 1, by omega⟩
    have empty : scanMembers (fuel + 1) (depth + 1) true ('\x7d' :: rest) = ([], true, rest) := by
      rw [scanMembers]; rfl
    exact scanValue_object empty
  | .object (m :: members), h, hf => by
    have text : indented k (.object (m :: members)) =
        '\x7b' :: (indentedMembers (k + 1) (m :: members) ++ newline k ++ ['\x7d']) := by
      simp [indented]
    rw [text] at hf ⊢
    simp only [List.length_cons, List.length_append, List.length_nil] at hf
    obtain ⟨fuel, rfl⟩ : ∃ f, fuel = f + 1 := ⟨fuel - 1, by omega⟩
    have read := scanMembers_indented fuel (depth + 1) (k + 1) k rest true (m :: members) h (by omega)
    rw [comma_first] at read
    rw [List.cons_append, List.append_assoc, List.singleton_append]
    exact scanValue_object read

theorem scanItems_indented (fuel depth k k' : Nat) (rest : List Char) (first : Bool) :
    ∀ js : List Json, (∀ n ∈ numbersIn js, n.ReadsBack) → 2 * (indentedItems k js).length ≤ fuel →
      scanItems (fuel + 1) depth first
          (comma (first || js.isEmpty) ++ indentedItems k js ++ newline k' ++ ']' :: rest) =
        (draftedItems depth js, true, rest)
  | [], _, _ => by
    have text : comma (first || ([] : List Json).isEmpty) ++ indentedItems k [] ++ newline k' ++ ']' :: rest =
        newline k' ++ ']' :: rest := by simp [comma, indentedItems]
    rw [text, scanItems, follow_close first k' (by decide)]
    rfl
  | j :: js, h, hf => by
    have hj : ∀ n ∈ j.numbers, n.ReadsBack := fun n hn => h n (List.mem_append_left _ hn)
    have hjs : ∀ n ∈ numbersIn js, n.ReadsBack := fun n hn => h n (List.mem_append_right _ hn)
    obtain ⟨c, cs, starts⟩ := indented_starts k j hj
    generalize hafter : comma (false || js.isEmpty) ++ indentedItems k js ++ newline k' ++ ']' :: rest = after
    have text : comma (first || (j :: js).isEmpty) ++ indentedItems k (j :: js) ++ newline k' ++ ']' :: rest =
        comma first ++ newline k ++ (c :: (cs ++ after)) := by
      rw [← List.cons_append, ← starts.eq, ← hafter]
      simp [indentedItems, comma]
    have breaks : Breaks after := hafter ▸ breaks_comma js _ (fun he => by rw [he]; rfl) k' _
    simp only [indentedItems, List.length_append, length_newline] at hf
    obtain ⟨fuel, rfl⟩ : ∃ f, fuel = f + 1 := ⟨fuel - 1, by omega⟩
    have item := scanValue_indented fuel depth k breaks j hj (by omega)
    have items := scanItems_indented fuel depth k k' rest false js hjs (by omega)
    rw [starts.eq, List.cons_append] at item
    rw [hafter] at items
    rw [text, scanItems, follow_part first k starts.space starts.bracket (by decide)]
    simp only [item, isCut_drafted, Bool.false_eq_true, if_false, items]
    rfl

theorem scanMembers_indented (fuel depth k k' : Nat) (rest : List Char) (first : Bool) :
    ∀ members : List (String × Json), (∀ n ∈ numbersOf members, n.ReadsBack) →
      2 * (indentedMembers k members).length ≤ fuel →
      scanMembers (fuel + 1) depth first
        (comma (first || members.isEmpty) ++ indentedMembers k members ++ newline k' ++ '\x7d' :: rest) =
        (draftedMembers depth members, true, rest)
  | [], _, _ => by
    have text : comma (first || ([] : List (String × Json)).isEmpty) ++ indentedMembers k [] ++ newline k' ++
        '\x7d' :: rest = newline k' ++ '\x7d' :: rest := by simp [comma, indentedMembers]
    rw [text, scanMembers, follow_close first k' (by decide)]
    rfl
  | (name, j) :: members, h, hf => by
    have hj : ∀ n ∈ j.numbers, n.ReadsBack := fun n hn => h n (List.mem_append_left _ hn)
    have hms : ∀ n ∈ numbersOf members, n.ReadsBack := fun n hn => h n (List.mem_append_right _ hn)
    generalize hafter : comma (false || members.isEmpty) ++ indentedMembers k members ++ newline k' ++ '\x7d' :: rest =
      after
    have text : comma (first || ((name, j) :: members).isEmpty) ++ indentedMembers k ((name, j) :: members) ++
        newline k' ++ '\x7d' :: rest = comma first ++ newline k ++
          ('"' :: (name.toList.flatMap escape ++ '"' :: ':' :: ' ' :: (indented k j ++ after))) := by
      rw [← hafter]
      simp [indentedMembers, comma, quote]
    have breaks : Breaks after := hafter ▸ breaks_comma members _ (fun he => by rw [he]; rfl) k' _
    simp only [indentedMembers, List.length_append, length_newline, List.length_cons] at hf
    obtain ⟨fuel, rfl⟩ : ∃ f, fuel = f + 1 := ⟨fuel - 1, by omega⟩
    have value := scanValue_indented fuel depth k breaks j hj (by omega)
    have read := scanMembers_indented fuel depth k k' rest false members hms (by omega)
    rw [hafter] at read
    rw [text, scanMembers, follow_part first k (by decide) (by decide) (by decide)]
    simp only [scanString_quote, skipSpace_cons (c := ':') (by decide), scanValue_blank, value, isCut_drafted,
      Bool.false_eq_true, if_false, read]
    rfl

end

/-- The text of a value whose numbers are read back says what the value does. -/
theorem parse_renderIndented (j : Json) (h : ∀ n ∈ j.numbers, n.ReadsBack) : parse j.renderIndented = drafted 0 j := by
  have breaks : Breaks [] := fun c hc => by cases hc
  have read := scanValue_indented (2 * (j.indented 0).length + 1) 0 0 breaks j h (by omega)
  rw [List.append_nil] at read
  unfold parse Draft.scan renderIndented
  rw [String.toList_ofList, read]
  simp [isCut_drafted, skipSpace]

/-! ## Nesting -/

mutual

/-- How deeply lists and records are nested in a value. -/
def nesting : Json → Nat
  | array items => 1 + nestingIn items
  | object members => 1 + nestingOf members
  | _ => 0

/-- The deepest nesting in the values of a list. -/
def nestingIn : List Json → Nat
  | [] => 0
  | j :: js => max (nesting j) (nestingIn js)

/-- The deepest nesting in the values of the members of a record. -/
def nestingOf : List (String × Json) → Nat
  | [] => 0
  | (_, j) :: rest => max (nesting j) (nestingOf rest)

end

mutual

/-- What the text of a value says is read when the value is not nested too deeply. -/
theorem settle_drafted (depth : Nat) (hd : depth ≤ depthMax) :
    ∀ j : Json, (drafted depth j).settle = if depth + j.nesting ≤ depthMax then some j else none
  | .null => (if_pos hd).symm
  | .bool b => (if_pos hd).symm
  | .number n => (if_pos hd).symm
  | .string s => (if_pos hd).symm
  | .array items => by
    rw [nesting, drafted]
    by_cases hlt : depth < depthMax
    · have read := settleItems_drafted (depth + 1) hlt items
      rw [if_pos hlt, settle, read]
      by_cases hfit : depth + (1 + nestingIn items) ≤ depthMax
      · rw [if_pos hfit, if_pos (by omega)]; rfl
      · rw [if_neg hfit, if_neg (by omega)]; rfl
    · rw [if_neg hlt, if_neg (by omega)]; rfl
  | .object members => by
    rw [nesting, drafted]
    by_cases hlt : depth < depthMax
    · have read := settleMembers_drafted (depth + 1) hlt members
      rw [if_pos hlt, settle, read]
      by_cases hfit : depth + (1 + nestingOf members) ≤ depthMax
      · rw [if_pos hfit, if_pos (by omega)]; rfl
      · rw [if_neg hfit, if_neg (by omega)]; rfl
    · rw [if_neg hlt, if_neg (by omega)]; rfl

theorem settleItems_drafted (depth : Nat) (hd : depth ≤ depthMax) :
    ∀ js : List Json, settleItems (draftedItems depth js) = if depth + nestingIn js ≤ depthMax then some js else none
  | [] => by rw [nestingIn, Nat.add_zero, if_pos hd]; rfl
  | j :: js => by
    have item := settle_drafted depth hd j
    have items := settleItems_drafted depth hd js
    rw [draftedItems, settleItems, item, items, nestingIn]
    by_cases hj : depth + j.nesting ≤ depthMax
    · by_cases hjs : depth + nestingIn js ≤ depthMax
      · rw [if_pos hj, if_pos hjs, if_pos (by omega)]; rfl
      · rw [if_pos hj, if_neg hjs, if_neg (by omega)]; rfl
    · have deep : ¬ depth + max j.nesting (nestingIn js) ≤ depthMax := by omega
      rw [if_neg hj, if_neg deep]; rfl

theorem settleMembers_drafted (depth : Nat) (hd : depth ≤ depthMax) :
    ∀ members : List (String × Json), settleMembers (draftedMembers depth members) =
      if depth + nestingOf members ≤ depthMax then some members else none
  | [] => by rw [nestingOf, Nat.add_zero, if_pos hd]; rfl
  | (name, j) :: members => by
    have value := settle_drafted depth hd j
    have read := settleMembers_drafted depth hd members
    rw [draftedMembers, settleMembers, value, read, nestingOf]
    by_cases hj : depth + j.nesting ≤ depthMax
    · by_cases hms : depth + nestingOf members ≤ depthMax
      · rw [if_pos hj, if_pos hms, if_pos (by omega)]; rfl
      · rw [if_pos hj, if_neg hms, if_neg (by omega)]; rfl
    · have deep : ¬ depth + max j.nesting (nestingOf members) ≤ depthMax := by omega
      rw [if_neg hj, if_neg deep]; rfl

end

end StepTimer.Json
