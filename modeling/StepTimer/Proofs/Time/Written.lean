/-
Which texts write a time. The reader splits a text at its first colon, counts and checks bytes, and then reads
numbers; what it accepts is given beside it as a grammar of characters (`Writes`), one or two decimal digits, a colon
and two decimal digits. A byte of a digit is a digit of its own, so bytes and characters are as many in what passes
the checks, and there no sign and no second colon is left. The time that a wait for the clock is for is sanitized
first, and what that gives can always be read.
-/
import Mathlib.Data.List.TakeDrop
import Mathlib.Data.List.TakeWhile
import StepTimer.Engine.Advance
import StepTimer.Proofs.Text.Digits

namespace StepTimer

namespace ClockTime

open Text

variable {c : Char} {cs before behind hour minute : List Char} {text : String} {t : ClockTime}

/-! ## Digits -/

theorem isDigitByte_iff {b : UInt8} : isDigitByte b = true ↔ 48 ≤ b.toNat ∧ b.toNat ≤ 57 := by
  rw [isDigitByte, Bool.and_eq_true, decide_eq_true_eq, decide_eq_true_eq, UInt8.le_iff_toNat_le, UInt8.le_iff_toNat_le]
  exact Iff.rfl

/-- The bytes of a character are digits when it is one: what takes more than one byte begins with a larger one. -/
theorem all_isDigitByte (c : Char) : (String.utf8EncodeChar c).all isDigitByte = true ↔ c.isDigit = true := by
  have large {n : Nat} (hn : 58 ≤ n) (hbyte : n < 256) (rest : List UInt8) :
      (UInt8.ofNat n :: rest).all isDigitByte ≠ true := by
    rw [List.all_cons, Ne, Bool.and_eq_true, isDigitByte_iff, UInt8.toNat_ofNat', Nat.mod_eq_of_lt hbyte]
    omega
  have beyond (h : ¬ c.toNat ≤ 127) : c.isDigit ≠ true := by
    rw [Ne, isDigit_iff]
    omega
  rw [String.utf8EncodeChar]
  simp only [Char.toNat_val]
  split
  · rw [List.all_cons, List.all_nil, Bool.and_true, isDigitByte_iff, isDigit_iff, UInt8.toNat_ofNat',
      Nat.mod_eq_of_lt (by omega)]
  next hlarge =>
    -- two, three or four bytes: the first one is at least 192, and no digit
    refine iff_of_false ?_ (beyond hlarge)
    split
    · exact large (by omega) (by omega) _
    · split
      · exact large (by omega) (by omega) _
      · exact large (by omega) (by omega) _

theorem all_bytes_iff : (bytes cs).all isDigitByte = true ↔ ∀ c ∈ cs, c.isDigit = true := by
  rw [bytes, List.all_flatMap, List.all_eq_true]
  exact forall₂_congr fun c _ => all_isDigitByte c

/-- A digit is one byte. -/
theorem length_bytes (digits : ∀ c ∈ cs, c.isDigit = true) : (bytes cs).length = cs.length := by
  induction cs with
  | nil => rfl
  | cons c cs ih =>
    have hone : c.utf8Size = 1 := utf8Size_of_isDigit (digits c List.mem_cons_self)
    rw [bytes, List.flatMap_cons, List.length_append, String.length_utf8EncodeChar, hone, List.length_cons,
      ← ih fun c hc => digits c (List.mem_cons_of_mem _ hc), Nat.add_comm]
    rfl

/-- One digit or two. -/
theorem one_or_two (digits : ∀ c ∈ cs, c.isDigit = true) (hpos : cs ≠ []) (short : cs.length ≤ 2) :
    (∃ d : Fin 10, cs = [Nat.digitChar d]) ∨ ∃ d e : Fin 10, cs = [Nat.digitChar d, Nat.digitChar e] := by
  match cs, hpos, short with
  | [c], _, _ =>
    obtain ⟨d, rfl⟩ := isDigit_iff_digitChar.1 (digits c (by simp))
    exact Or.inl ⟨d, rfl⟩
  | [c, c'], _, _ =>
    obtain ⟨d, rfl⟩ := isDigit_iff_digitChar.1 (digits c (by simp))
    obtain ⟨e, rfl⟩ := isDigit_iff_digitChar.1 (digits c' (by simp))
    exact Or.inr ⟨d, e, rfl⟩

theorem number?_one : ∀ d : Fin 10, number? [Nat.digitChar d] = some d.val := by decide

theorem number?_two : ∀ d e : Fin 10, number? [Nat.digitChar d, Nat.digitChar e] = some (10 * d.val + e.val) := by
  decide

/-! ## The grammar -/

/-- Whether a text writes a time: one or two digits for the hour, a colon, two digits for the minute, and nothing
else. -/
inductive Writes : String → ClockTime → Prop
  | short (h a b : Fin 10) :
    Writes (String.ofList [Nat.digitChar h, ':', Nat.digitChar a, Nat.digitChar b]) ⟨h, 10 * a + b⟩
  | long (g h a b : Fin 10) :
    Writes (String.ofList [Nat.digitChar g, Nat.digitChar h, ':', Nat.digitChar a, Nat.digitChar b])
      ⟨10 * g + h, 10 * a + b⟩

/-- A text splits at a colon that has none before it. -/
theorem splitAtColon?_eq_some_iff :
    splitAtColon? cs = some (before, behind) ↔ cs = before ++ ':' :: behind ∧ ':' ∉ before := by
  have other {d : Char} : (decide (d ≠ ':') = true) ↔ d ≠ ':' := decide_eq_true_iff
  rw [splitAtColon?, List.span_eq_takeWhile_dropWhile]
  constructor
  · intro h
    split at h
    · cases h
    next front colon back hspan =>
      obtain ⟨rfl, hdrop⟩ := Prod.mk.inj hspan
      cases h
      have hcolon : colon = ':' := by
        have := List.head?_dropWhile_not (fun d => decide (d ≠ ':')) cs
        rw [hdrop] at this
        simpa using this
      subst hcolon
      refine ⟨?_, fun hmem => ?_⟩
      · rw [← hdrop, List.takeWhile_append_dropWhile]
      · have := List.mem_takeWhile_imp hmem
        exact other.1 this rfl
  · rintro ⟨rfl, hnone⟩
    have all : ∀ d ∈ before, decide (d ≠ ':') = true := fun d hd => other.2 fun h => hnone (h ▸ hd)
    rw [List.takeWhile_append_of_pos all, List.dropWhile_append_of_pos all]
    simp

/-- What is read of two parts of digits that are as long as they may be. -/
theorem parse?_of_digits {x y : Nat} (hhour : ∀ c ∈ hour, c.isDigit = true) (hminute : ∀ c ∈ minute, c.isDigit = true)
    (hpos : hour ≠ []) (hshort : hour.length ≤ 2) (htwo : minute.length = 2) (hx : number? hour = some x)
    (hy : number? minute = some y) :
    parse? (String.ofList (hour ++ ':' :: minute)) = if 12 < x ∨ 59 < y then none else some ⟨x, y⟩ := by
  have hsplit : splitAtColon? (hour ++ ':' :: minute) = some (hour, minute) :=
    splitAtColon?_eq_some_iff.2 ⟨rfl, fun hmem => absurd (hhour ':' hmem) (by decide)⟩
  have hlengths : ¬ ((bytes hour).isEmpty = true ∨ 2 < (bytes hour).length ∨ (bytes minute).length ≠ 2) := by
    rw [List.isEmpty_iff_length_eq_zero, length_bytes hhour, length_bytes hminute]
    have := List.length_pos_iff.2 hpos
    omega
  have hdigits : ¬ ((!(bytes hour).all isDigitByte) = true ∨ (!(bytes minute).all isDigitByte) = true) := by
    rw [all_bytes_iff.2 hhour, all_bytes_iff.2 hminute]
    decide
  simp only [parse?, String.toList_ofList, hsplit, Option.bind_eq_bind, Option.bind_some, if_neg hlengths,
    if_neg hdigits, hx, hy]

/-- What is read consists of two parts of digits. -/
theorem parts_of_parse? (h : parse? text = some t) : ∃ hour minute x y, text = String.ofList (hour ++ ':' :: minute) ∧
    (∀ c ∈ hour, c.isDigit = true) ∧ (∀ c ∈ minute, c.isDigit = true) ∧ hour ≠ [] ∧ hour.length ≤ 2 ∧
    minute.length = 2 ∧ number? hour = some x ∧ number? minute = some y := by
  simp only [parse?, Option.bind_eq_bind, Option.bind_eq_some_iff] at h
  obtain ⟨⟨hour, minute⟩, hsplit, h⟩ := h
  dsimp only at h
  split at h
  · cases h
  next hlengths =>
    split at h
    · cases h
    next hdigits =>
      obtain ⟨x, hx, y, hy, -⟩ : ∃ x, number? hour = some x ∧ ∃ y, number? minute = some y ∧ _ := by
        simpa only [Option.bind_eq_bind, Option.bind_eq_some_iff] using h
      -- once all bytes are digits they are as many as the characters, and the checks are about characters
      simp only [Bool.not_eq_true', not_or, Bool.not_eq_false, all_bytes_iff] at hdigits
      obtain ⟨hhour, hminute⟩ := hdigits
      rw [List.isEmpty_iff_length_eq_zero, length_bytes hhour, length_bytes hminute] at hlengths
      refine ⟨hour, minute, x, y, ?_, hhour, hminute, List.length_pos_iff.1 (by omega), by omega, by omega, hx, hy⟩
      rw [← (splitAtColon?_eq_some_iff.1 hsplit).1, String.ofList_toList]

/-- Reading accepts exactly the texts of the grammar whose hour is at most twelve and whose minute at most 59. -/
theorem parse?_eq_some_iff : parse? text = some t ↔ Writes text t ∧ t.hour ≤ 12 ∧ t.minute ≤ 59 := by
  constructor
  · intro h
    obtain ⟨hour, minute, x, y, rfl, hhour, hminute, hpos, hshort, htwo, hx, hy⟩ := parts_of_parse? h
    rw [parse?_of_digits hhour hminute hpos hshort htwo hx hy] at h
    split at h
    · cases h
    next hrange =>
      cases h
      refine ⟨?_, by simp only; omega, by simp only; omega⟩
      obtain ⟨d, rfl⟩ | ⟨a, b, rfl⟩ := one_or_two hminute (by rintro rfl; cases htwo) (Nat.le_of_eq htwo)
      · cases htwo
      rw [number?_two] at hy
      cases hy
      obtain ⟨d, rfl⟩ | ⟨g, d, rfl⟩ := one_or_two hhour hpos hshort
      · rw [number?_one] at hx
        cases hx
        exact .short d a b
      · rw [number?_two] at hx
        cases hx
        exact .long g d a b
  · rintro ⟨hwrites, hhour, hminute⟩
    have digit (d : Fin 10) : (Nat.digitChar d).isDigit = true := isDigit_iff_digitChar.2 ⟨d, rfl⟩
    have one (d : Fin 10) : ∀ c ∈ [Nat.digitChar d], c.isDigit = true := by simp [digit]
    have two (d e : Fin 10) : ∀ c ∈ [Nat.digitChar d, Nat.digitChar e], c.isDigit = true := by simp [digit]
    cases hwrites with
    | short h a b =>
      refine (parse?_of_digits (one h) (two a b) (by simp) (by simp) rfl (number?_one h) (number?_two a b)).trans
        (if_neg ?_)
      simp only at hhour hminute
      omega
    | long g h a b =>
      refine (parse?_of_digits (two g h) (two a b) (by simp) (by simp) rfl (number?_two g h) (number?_two a b)).trans
        (if_neg ?_)
      simp only at hhour hminute
      omega

/-! ## Sanitizing -/

/-- Whether a text writes a time of a 12-hour clock. -/
def IsWritten (text : String) : Prop := ∃ t, Writes text t ∧ 1 ≤ t.hour ∧ t.hour ≤ 12 ∧ t.minute ≤ 59

theorem isWritten_iff : IsWritten text ↔ ∃ t, parse? text = some t ∧ 1 ≤ t.hour := by
  refine exists_congr fun t => ?_
  rw [parse?_eq_some_iff]
  tauto

instance (text : String) : Decidable (IsWritten text) :=
  decidable_of_iff ((parse? text).any (1 ≤ ·.hour) = true) <| by
    rw [isWritten_iff, Option.any_eq_true]
    simp only [decide_eq_true_eq]

end ClockTime

open ClockTime

theorem sanitizeTime_eq_ite (text fallback : String) :
    sanitizeTime text fallback = if IsWritten text then text else fallback := by
  unfold sanitizeTime
  split
  next t h =>
    have hhour := (parse?_eq_some_iff.1 h).2.1
    have hiff : 1 ≤ t.hour ∧ t.hour ≤ 12 ↔ IsWritten text := by
      rw [isWritten_iff]
      refine ⟨fun hrange => ⟨t, h, hrange.1⟩, fun ⟨t', h', hpos⟩ => ?_⟩
      rw [h] at h'
      cases h'
      exact ⟨hpos, hhour⟩
    exact if_congr hiff rfl rfl
  next h =>
    rw [if_neg]
    intro hw
    obtain ⟨t, ht, -⟩ := isWritten_iff.1 hw
    rw [h] at ht
    cases ht

/-- Sanitizing keeps exactly the texts that write a time of a 12-hour clock, and gives the fallback for all others; so
it tells the ones from the others wherever the fallback is another text. What it gives with noon as the fallback can
be read, and a wait for the clock waits for the time that is read, never for the one that stands in for a text that
cannot be read. -/
theorem sanitizeTime_grammar (text fallback : String) :
    (IsWritten text → sanitizeTime text fallback = text) ∧
      (¬ IsWritten text → sanitizeTime text fallback = fallback) ∧
      (text ≠ fallback → (sanitizeTime text fallback = text ↔ IsWritten text)) ∧
      ∃ t, parse? (sanitizeTime text "12:00") = some t ∧ ∀ id half c d,
        Activity.beginAction id c d (.waitUntil text half) =
          Activity.beginWait id (UInt64.ofNat (t.millisUntil half (c.equipment.wall c.now))) c d := by
  have hkept : IsWritten text → sanitizeTime text fallback = text := fun h => by rw [sanitizeTime_eq_ite, if_pos h]
  have hfell : ¬ IsWritten text → sanitizeTime text fallback = fallback := fun h => by
    rw [sanitizeTime_eq_ite, if_neg h]
  refine ⟨hkept, hfell, fun hne => ⟨fun h => ?_, hkept⟩, ?_⟩
  · by_contra hnot
    exact hne (h.symm.trans (hfell hnot))
  · have hwritten : IsWritten (sanitizeTime text "12:00") := by
      rw [sanitizeTime_eq_ite]
      split
      next h => exact h
      next => decide
    obtain ⟨t, ht, -⟩ := isWritten_iff.1 hwritten
    refine ⟨t, ht, fun id half c d => ?_⟩
    rw [Activity.beginAction, millisUntilClock, ht, Option.getD_some]

/-- A leading zero is kept; a sign, a second colon and a digit of another script are not. -/
theorem sanitizeTime_grammar_marks :
    (IsWritten "07:30" ∧ sanitizeTime "07:30" "12:00" = "07:30") ∧
      (¬ IsWritten "+7:05" ∧ sanitizeTime "+7:05" "12:00" = "12:00") ∧
      (¬ IsWritten "7:05:0" ∧ sanitizeTime "7:05:0" "12:00" = "12:00") ∧
      "\u0667:05" ≠ "12:00" ∧ (sanitizeTime "\u0667:05" "12:00" = "\u0667:05" ↔ IsWritten "\u0667:05") := by
  have hgrammar (text : String) := sanitizeTime_grammar text "12:00"
  have hzero : IsWritten "07:30" := by decide
  have hsign : ¬ IsWritten "+7:05" := by decide
  have hcolon : ¬ IsWritten "7:05:0" := by decide
  have hscript : "\u0667:05" ≠ "12:00" := by decide
  exact ⟨⟨hzero, (hgrammar _).1 hzero⟩, ⟨hsign, (hgrammar _).2.1 hsign⟩, ⟨hcolon, (hgrammar _).2.1 hcolon⟩, hscript,
    (hgrammar _).2.2.1 hscript⟩

end StepTimer
