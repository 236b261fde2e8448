/-
Decimal digits as characters: they stand in a row, are the written numbers below ten, take one byte, and
are not blank.
-/
import StepTimer.Text.Blank

namespace StepTimer.Text

variable {c : Char}

theorem isDigit_iff : c.isDigit = true ↔ 48 ≤ c.toNat ∧ c.toNat ≤ 57 := by
  rw [Char.isDigit, Bool.and_eq_true, decide_eq_true_eq, decide_eq_true_eq]
  exact Iff.rfl

/-- The decimal digits are those of the numbers below ten. -/
theorem isDigit_iff_digitChar : c.isDigit = true ↔ ∃ d : Fin 10, c = Nat.digitChar d := by
  constructor
  · intro h
    obtain ⟨hlo, hhi⟩ := isDigit_iff.1 h
    have table : ∀ d : Fin 10, Char.ofNat (48 + d) = Nat.digitChar d := by decide
    refine ⟨⟨c.toNat - 48, by omega⟩, ?_⟩
    calc c = Char.ofNat c.toNat := (Char.ofNat_toNat c).symm
      _ = Char.ofNat (48 + (c.toNat - 48)) := by rw [Nat.add_sub_cancel' hlo]
      _ = _ := table ⟨c.toNat - 48, by omega⟩
  · rintro ⟨d, rfl⟩
    revert d
    decide

theorem utf8Size_of_isDigit (h : c.isDigit = true) : c.utf8Size = 1 := by
  rw [Char.utf8Size_eq_one_iff, UInt32.le_iff_toNat_le, Char.toNat_val]
  exact Nat.le_trans (isDigit_iff.1 h).2 (by decide)

/-- No digit is blank. -/
theorem isBlank_of_isDigit (h : c.isDigit = true) : isBlank c = false := by
  obtain ⟨d, rfl⟩ := isDigit_iff_digitChar.1 h
  revert d
  decide

end StepTimer.Text
