/-
How a remaining time is read back. A text has up to three parts with blanks between them, for the hours, the minutes
and the seconds, each of them digits and the letter of its unit, of which the larger ones may be missing
(`WrittenDuration`). What is written of some milliseconds is read back as the whole seconds that they take. So two
texts are the same just if these are, and a text never says less than what is left.
-/
import Mathlib.Algebra.Order.Floor.Div
import Mathlib.GroupTheory.GroupAction.Ring
import StepTimer.Proofs.Engine.Countdowns
import StepTimer.Proofs.Engine.Rounding
import StepTimer.Proofs.Text.Digits
import StepTimer.Run.State

namespace StepTimer

/-- The digits in the parts of a written duration. The larger parts may be missing. -/
inductive WrittenDuration where
  | seconds (s : List Char)
  | minutes (m s : List Char)
  | hours (h m s : List Char)
deriving DecidableEq, Repr

namespace WrittenDuration

/-- The number that digits stand for. -/
def number (digits : List Char) : Nat := Nat.ofDigitChars 10 digits 0

/-- The seconds of a written duration; a part that is missing counts as zero. -/
def total : WrittenDuration → Nat
  | seconds s => number s
  | minutes m s => number m * 60 + number s
  | hours h m s => number h * 3600 + number m * 60 + number s

/-- A part behind a larger one is written in two digits. It does not come to a larger one. -/
structure IsPadded (digits : List Char) : Prop where
  two : digits.length = 2
  lt : number digits < 60

/-- Whether no seconds and no minutes come to a larger part, and they are padded behind one, which is not zero if it
is the first. -/
def IsTidy : WrittenDuration → Prop
  | seconds s => number s < 60
  | minutes m s => (0 < number m ∧ number m < 60) ∧ IsPadded s
  | hours h m s => 0 < number h ∧ IsPadded m ∧ IsPadded s

/-- The digits of a part that ends with the letter of its unit. -/
def digits? (unit : Char) (part : List Char) : Option (List Char) :=
  if part.getLast? = some unit ∧ part.dropLast ≠ [] ∧ part.dropLast.all Char.isDigit then some part.dropLast else none

/-- Reads a duration. -/
def read? (text : String) : Option WrittenDuration :=
  match text.toList.splitOn ' ' with
  | [s] => do return seconds (← digits? 's' s)
  | [m, s] => do return minutes (← digits? 'm' m) (← digits? 's' s)
  | [h, m, s] => do return hours (← digits? 'h' h) (← digits? 'm' m) (← digits? 's' s)
  | _ => none

/-! ## Reading -/

/-- Whether some characters are a number in digits. -/
structure IsNumeral (digits : List Char) : Prop where
  ne_nil : digits ≠ []
  isDigit : ∀ c ∈ digits, c.isDigit = true

/-- The numbers of a written duration with the letters of their units. -/
def parts : WrittenDuration → List (List Char × Char)
  | seconds s => [(s, 's')]
  | minutes m s => [(m, 'm'), (s, 's')]
  | hours h m s => [(h, 'h'), (m, 'm'), (s, 's')]

/-- The text of a written duration. -/
def text (w : WrittenDuration) : List Char := [' '].intercalate (w.parts.map fun part => part.1 ++ [part.2])

variable {digits : List Char} {unit : Char} {w : WrittenDuration} {n : Nat}

theorem digits?_of_isNumeral (hn : IsNumeral digits) (unit : Char) : digits? unit (digits ++ [unit]) = some digits := by
  have hall : digits.all Char.isDigit = true := List.all_eq_true.2 hn.isDigit
  rw [digits?, List.getLast?_concat, List.dropLast_concat, if_pos ⟨rfl, hn.ne_nil, hall⟩]

/-- A number with its unit has no blank in it. -/
theorem blank_notMem_part (hn : IsNumeral digits) (hunit : unit ≠ ' ') : ' ' ∉ digits ++ [unit] := by
  rw [List.mem_append, List.mem_singleton, not_or]
  refine ⟨fun hmem => ?_, hunit.symm⟩
  have hblank : ' '.isDigit = true := hn.isDigit _ hmem
  exact absurd hblank (by decide)

/-- What is written in digits is read back. -/
theorem read?_text (hw : ∀ part ∈ w.parts, IsNumeral part.1) : read? (String.ofList w.text) = some w := by
  have hsplit : w.text.splitOn ' ' = w.parts.map fun part => part.1 ++ [part.2] := by
    have hunit : ∀ part ∈ w.parts, part.2 ≠ ' ' := by cases w <;> simp [parts]
    refine List.splitOn_intercalate ' ' (List.forall_mem_map.2 fun part hpart => ?_) (by cases w <;> simp [parts])
    exact blank_notMem_part (hw part hpart) (hunit part hpart)
  rw [read?, String.toList_ofList, hsplit]
  cases w with
  | seconds s =>
    simp [parts, digits?_of_isNumeral (hw (s, 's') (by simp [parts]))]
  | minutes m s =>
    simp [parts, digits?_of_isNumeral (hw (m, 'm') (by simp [parts])), digits?_of_isNumeral (hw (s, 's') (by simp [parts]))]
  | hours h m s =>
    simp [parts, digits?_of_isNumeral (hw (h, 'h') (by simp [parts])), digits?_of_isNumeral (hw (m, 'm') (by simp [parts])),
      digits?_of_isNumeral (hw (s, 's') (by simp [parts]))]

/-! ## Writing -/

theorem isNumeral_toDigits (n : Nat) : IsNumeral (Nat.toDigits 10 n) :=
  ⟨Nat.toDigits_ne_nil, fun _ hc => Nat.isDigit_of_mem_toDigits (by decide) (by decide) hc⟩

theorem number_toDigits (n : Nat) : number (Nat.toDigits 10 n) = n := Nat.ofDigitChars_ten_toDigits

/-- A number in at least two digits. -/
def twoDigits (n : Nat) : List Char := if n < 10 then '0' :: Nat.toDigits 10 n else Nat.toDigits 10 n

theorem toList_twoPlaces (n : Nat) : (twoPlaces n).toList = twoDigits n := by
  unfold twoPlaces twoDigits
  split <;> simp [Nat.toList_repr]

theorem isNumeral_twoDigits (n : Nat) : IsNumeral (twoDigits n) := by
  obtain ⟨hne, hdigits⟩ := isNumeral_toDigits n
  unfold twoDigits
  split
  · exact ⟨List.cons_ne_nil _ _, List.forall_mem_cons.2 ⟨by decide, hdigits⟩⟩
  · exact ⟨hne, hdigits⟩

theorem number_twoDigits (n : Nat) : number (twoDigits n) = n := by
  unfold twoDigits
  split
  · -- a leading zero changes nothing
    rw [number, Nat.ofDigitChars_cons]
    exact number_toDigits n
  · exact number_toDigits n

theorem isPadded_twoDigits (h : n < 60) : IsPadded (twoDigits n) := by
  refine ⟨?_, by rw [number_twoDigits]; exact h⟩
  unfold twoDigits
  split
  next hlt => rw [Nat.toDigits_of_lt_base hlt]; rfl
  next hge =>
    have hle : (Nat.toDigits 10 n).length ≤ 2 := (Nat.length_toDigits_le_iff (by decide) (by decide)).2 (by omega)
    have hlt : ¬ (Nat.toDigits 10 n).length ≤ 1 := fun hone =>
      hge ((Nat.length_toDigits_le_iff (by decide) (by decide)).1 hone)
    omega

/-- A duration of some seconds, as it is written. -/
def ofSeconds (n : Nat) : WrittenDuration :=
  if 0 < n / 3600 then hours (Nat.toDigits 10 (n / 3600)) (twoDigits (n % 3600 / 60)) (twoDigits (n % 60))
  else if 0 < n % 3600 / 60 then minutes (Nat.toDigits 10 (n % 3600 / 60)) (twoDigits (n % 60))
  else seconds (Nat.toDigits 10 (n % 60))

theorem isNumeral_of_ofSeconds (n : Nat) : ∀ part ∈ (ofSeconds n).parts, IsNumeral part.1 := by
  unfold ofSeconds
  split
  · simp [parts, isNumeral_toDigits, isNumeral_twoDigits]
  · split <;> simp [parts, isNumeral_toDigits, isNumeral_twoDigits]

theorem total_ofSeconds (n : Nat) : (ofSeconds n).total = n := by
  unfold ofSeconds
  split
  · simp only [total, number_toDigits, number_twoDigits]; omega
  · split
    · simp only [total, number_toDigits, number_twoDigits]; omega
    · simp only [total, number_toDigits]; omega

theorem isTidy_ofSeconds (n : Nat) : (ofSeconds n).IsTidy := by
  have hsec : n % 60 < 60 := Nat.mod_lt _ (by decide)
  have hmin : n % 3600 / 60 < 60 := by omega
  unfold ofSeconds
  split
  next hpos => exact ⟨by rw [number_toDigits]; exact hpos, isPadded_twoDigits hmin, isPadded_twoDigits hsec⟩
  · split
    next hpos => exact ⟨by rw [number_toDigits]; exact ⟨hpos, hmin⟩, isPadded_twoDigits hsec⟩
    · simpa only [IsTidy, number_toDigits] using hsec

end WrittenDuration

/-- No more is left of a countdown than when it was settled. -/
theorem Countdown.left_le_remaining (c : Countdown) (now : Instant) : c.left now ≤ c.remaining := by
  unfold left
  cases c.anchor <;> simp

open WrittenDuration

/-- No count is too large for the seconds of it, and no millisecond is lost. -/
theorem toNat_secondsUp (ms : UInt64) : (secondsUp ms).toNat = ms.toNat ⌈/⌉ 1000 := by
  have hlt := ms.toNat_lt
  rw [Nat.ceilDiv_eq_add_pred_div, secondsUp]
  split <;> rename_i hrest <;> rw [UInt64.lt_iff_toNat_lt] at hrest <;>
    simp only [UInt64.toNat_add, UInt64.toNat_div, UInt64.toNat_mod, UInt64.reduceToNat] at hrest ⊢ <;> omega

theorem renderDuration_eq (ms : UInt64) : renderDuration ms = String.ofList (ofSeconds (secondsUp ms).toNat).text := by
  refine String.toList_injective ?_
  have hhours : (secondsUp ms / 3600).toNat = (secondsUp ms).toNat / 3600 := UInt64.toNat_div ..
  have hminutes : (secondsUp ms % 3600 / 60).toNat = (secondsUp ms).toNat % 3600 / 60 := by
    rw [UInt64.toNat_div, UInt64.toNat_mod]; rfl
  have hseconds : (secondsUp ms % 60).toNat = (secondsUp ms).toNat % 60 := UInt64.toNat_mod ..
  rw [String.toList_ofList, renderDuration, ofSeconds]
  simp only [hhours, hminutes, hseconds]
  split
  · simp [text, parts, toList_twoPlaces, Nat.toList_repr]
  · split <;> simp [text, parts, toList_twoPlaces, Nat.toList_repr]

theorem read?_renderDuration (ms : UInt64) :
    ∃ w, read? (renderDuration ms) = some w ∧ w.total = ms.toNat ⌈/⌉ 1000 ∧ w.IsTidy := by
  refine ⟨ofSeconds (secondsUp ms).toNat, ?_, ?_, isTidy_ofSeconds _⟩
  · rw [renderDuration_eq, read?_text (isNumeral_of_ofSeconds _)]
  · rw [total_ofSeconds, toNat_secondsUp]

/-- The whole seconds of some milliseconds are no less than these. -/
theorem le_ceilDiv (n : Nat) : n ≤ 1000 * (n ⌈/⌉ 1000) := by
  rw [Nat.ceilDiv_eq_add_pred_div]
  omega

/-- A remaining time can be read back. Its text has a part for the seconds, with one for the minutes or two for hours
and minutes before it; behind another part it has two digits, and it is below sixty unless it is the hours; and it reads
as the whole seconds that the milliseconds take, one that has begun counting as a whole one. In 64 bits none of that
overflows. So two texts are the same just if these seconds are. The text of what is left on the active step, and that
of a countdown at any instant since it was settled, reads no less than what is left. -/
theorem renderDuration_reads_back (ms : UInt64) :
    (∃ w, read? (renderDuration ms) = some w ∧ w.total = ms.toNat ⌈/⌉ 1000 ∧ w.IsTidy) ∧
      ((ms / 1000).toNat + 1 < UInt64.size ∧ (secondsUp ms).toNat = ms.toNat ⌈/⌉ 1000) ∧
      (∀ ms', renderDuration ms = renderDuration ms' ↔ ms.toNat ⌈/⌉ 1000 = ms'.toNat ⌈/⌉ 1000) ∧
      (∀ s : RunState, s.remainingMs = some ms →
        ∃ text w, s.remainingDisplay = some text ∧ read? text = some w ∧ ms.toNat ≤ 1000 * w.total) ∧
      ∀ c : Countdown, c.InRange →
        ∃ w, read? (renderDuration c.remainingMs) = some w ∧ ∀ now, c.left now ≤ 1000 * w.total := by
  refine ⟨read?_renderDuration ms, ⟨?_, toNat_secondsUp ms⟩, fun ms' => ⟨fun h => ?_, fun h => ?_⟩, fun s hs => ?_,
    fun c hc => ?_⟩
  · have hlt := ms.toNat_lt
    simp only [UInt64.toNat_div, UInt64.reduceToNat, UInt64.size]
    omega
  · obtain ⟨w, hread, htotal, -⟩ := read?_renderDuration ms
    obtain ⟨w', hread', htotal', -⟩ := read?_renderDuration ms'
    rw [h, hread'] at hread
    cases hread
    exact htotal.symm.trans htotal'
  · rw [renderDuration_eq, renderDuration_eq, toNat_secondsUp, toNat_secondsUp, h]
  · obtain ⟨w, hread, htotal, -⟩ := read?_renderDuration ms
    exact ⟨renderDuration ms, w, by rw [RunState.remainingDisplay, hs, Option.map_some], hread, htotal ▸ le_ceilDiv _⟩
  · obtain ⟨w, hread, htotal, -⟩ := read?_renderDuration c.remainingMs
    refine ⟨w, hread, fun now => ?_⟩
    have hshown : c.remainingMs.toNat ≤ 1000 * w.total := htotal ▸ le_ceilDiv _
    have hleft := c.left_le_remaining now
    rw [hc.toNat_remainingMs] at hshown
    omega

/-- Half a second before an hour the text has gone over to hours. -/
theorem renderDuration_reads_back_hour :
    renderDuration 3599500 = "1h 00m 00s" ∧ (∃ w, read? "1h 00m 00s" = some w ∧ w.total = 3600 ∧ w.IsTidy) ∧
      renderDuration 3599500 = renderDuration 3600000 ∧
      (∃ text w, ({ status := .running, remainingMs := some 3599500 } : RunState).remainingDisplay = some text ∧
        read? text = some w ∧ 3599500 ≤ 1000 * w.total) ∧
      ∃ w, read? (renderDuration (Countdown.start 3599500 ⟨0⟩).remainingMs) = some w ∧
        ∀ now, (Countdown.start 3599500 ⟨0⟩).left now ≤ 1000 * w.total := by
  obtain ⟨hread, -, hsame, hstate, hcountdown⟩ := renderDuration_reads_back 3599500
  have htext : renderDuration 3599500 = "1h 00m 00s" := by decide
  rw [htext] at hread
  exact ⟨htext, hread, (hsame 3600000).2 (by decide), hstate _ rfl, hcountdown _ (Countdown.inRange_start 3599500 ⟨0⟩)⟩

end StepTimer
