/-
The text of numbers and quoted texts is read back. Integers of 64 bits and all texts are; of a double
it is a condition, since the reader computes it by one rounded product or quotient.
-/
import StepTimer.Json.Draft
import StepTimer.Json.Print

namespace StepTimer

namespace Json

/-! ## Digits -/

namespace Numeral

/-- The decimal digits of a natural. -/
def digitsOf (n : Nat) : List Nat := (Nat.toDigits 10 n).map fun c => c.toNat - '0'.toNat

theorem digitsOf_of_lt {n : Nat} (h : n < 10) : digitsOf n = [n] := by
  unfold digitsOf
  rw [Nat.toDigits_of_lt_base h, List.map_singleton]
  exact congrArg ([·]) (Nat.toNat_digitChar_sub_48_of_lt_ten h)

theorem digitsOf_of_le {n : Nat} (h : 10 ≤ n) : digitsOf n = digitsOf (n / 10) ++ [n % 10] := by
  have last : (n % 10).digitChar.toNat - '0'.toNat = n % 10 :=
    Nat.toNat_digitChar_sub_48_of_lt_ten (Nat.mod_lt n (by decide))
  unfold digitsOf
  rw [Nat.toDigits_of_base_le (by decide) h, List.map_append, List.map_singleton, last]

/-- Only zero starts with a zero. -/
theorem head?_digitsOf {n : Nat} (h : 0 < n) : (digitsOf n).head? ≠ some 0 := by
  induction n using Nat.strongRecOn with
  | ind n ih =>
    rcases Nat.lt_or_ge n 10 with hlt | hge
    · rw [digitsOf_of_lt hlt]
      intro he
      cases he
      exact Nat.lt_irrefl 0 h
    · have hd := ih (n / 10) (by omega) (by omega)
      rw [digitsOf_of_le hge, List.head?_append]
      cases hh : (digitsOf (n / 10)).head? with
      | none =>
        have hne : digitsOf (n / 10) ≠ [] := by simp [digitsOf]
        exact absurd (List.head?_eq_none_iff.1 hh) hne
      | some d => rw [hh] at hd; exact hd

/-- The digits of a natural of 64 bits make it the significand. -/
theorem ofWhole_digitsOf {n : Nat} (h : n ≤ significandMax) : ofWhole (digitsOf n) = ⟨n, 0⟩ := by
  induction n using Nat.strongRecOn with
  | ind n ih =>
    rcases Nat.lt_or_ge n 10 with hlt | hge
    · rw [digitsOf_of_lt hlt]
      simp only [ofWhole, List.foldl_cons, List.foldl_nil]
      rw [if_pos ⟨trivial, by omega⟩, Nat.zero_mul, Nat.zero_add]
    · have hd := ih (n / 10) (by omega) (by omega)
      have hn : n / 10 * 10 + n % 10 = n := by omega
      rw [digitsOf_of_le hge]
      unfold ofWhole at hd ⊢
      rw [List.foldl_append, hd]
      simp only [List.foldl_cons, List.foldl_nil]
      rw [if_pos ⟨trivial, by omega⟩, hn]

/-! ## What follows a numeral -/

/-- A text that breaks off or goes on with a comma or a new line. -/
def Breaks (rest : List Char) : Prop := ∀ c, rest.head? = some c → c = ',' ∨ c = '\n'

variable {rest : List Char}

theorem Breaks.cases (h : Breaks rest) : rest = [] ∨ (∃ cs, rest = ',' :: cs) ∨ ∃ cs, rest = '\n' :: cs := by
  rcases rest with _ | ⟨c, cs⟩
  · exact .inl rfl
  · rcases h c rfl with rfl | rfl
    · exact .inr (.inl ⟨cs, rfl⟩)
    · exact .inr (.inr ⟨cs, rfl⟩)

theorem spanDigits_append (h : Breaks rest) (cs : List Char) :
    spanDigits (cs ++ rest) = ((spanDigits cs).1, (spanDigits cs).2 ++ rest) := by
  induction cs with
  | nil => rcases h.cases with rfl | ⟨_, rfl⟩ | ⟨_, rfl⟩ <;> rfl
  | cons c cs ih =>
    unfold spanDigits at ih ⊢
    rw [List.cons_append, List.takeWhile_cons, List.dropWhile_cons, List.takeWhile_cons, List.dropWhile_cons]
    obtain ⟨htake, hdrop⟩ := Prod.mk.inj ih
    cases hc : c.isDigit with
    | true => exact Prod.ext (congrArg ((c.toNat - '0'.toNat) :: ·) htake) hdrop
    | false => rfl

theorem scanFraction_append (h : Breaks rest) {cs r : List Char} {ds : List Nat}
    (hs : scanFraction cs = some (ds, r)) : scanFraction (cs ++ rest) = some (ds, r ++ rest) := by
  rcases cs with _ | ⟨c, cs⟩
  · cases hs
    rcases h.cases with rfl | ⟨_, rfl⟩ | ⟨_, rfl⟩ <;> rfl
  · by_cases hc : c = '.'
    · subst hc
      rw [List.cons_append, scanFraction, spanDigits_append h]
      rw [scanFraction] at hs
      split at hs
      · cases hs
      next digits r' hne heq =>
        cases hs
        obtain ⟨d, ds, rfl⟩ := List.exists_cons_of_ne_nil hne
        rw [heq]
    · have plain (cs : List Char) : scanFraction (c :: cs) = some ([], c :: cs) := by
        unfold scanFraction
        split
        next heq => cases heq; exact absurd rfl hc
        next => rfl
      rw [plain] at hs
      cases hs
      exact plain (cs ++ rest)

theorem scanSign_append (c : Char) (cs rest : List Char) :
    scanSign (c :: cs ++ rest) = ((scanSign (c :: cs)).1, (scanSign (c :: cs)).2 ++ rest) := by
  by_cases hp : c = '+'
  · subst hp; rfl
  · by_cases hm : c = '-'
    · subst hm; rfl
    · have plain (cs : List Char) : scanSign (c :: cs) = (false, c :: cs) := by
        unfold scanSign
        split
        next heq => cases heq; exact absurd rfl hp
        next heq => cases heq; exact absurd rfl hm
        next => rfl
      rw [List.cons_append, plain, plain]; rfl

theorem scanExponent_append (h : Breaks rest) {cs r : List Char} {e : Option (Bool × List Nat)}
    (hs : scanExponent cs = some (e, r)) : scanExponent (cs ++ rest) = some (e, r ++ rest) := by
  rcases cs with _ | ⟨c, cs⟩
  · cases hs
    rcases h.cases with rfl | ⟨_, rfl⟩ | ⟨_, rfl⟩ <;> rfl
  · rw [List.cons_append, scanExponent]
    rw [scanExponent] at hs
    by_cases hc : c = 'e' ∨ c = 'E'
    · rw [if_pos hc] at hs ⊢
      rcases cs with _ | ⟨d, cs⟩
      · cases hs
      · rw [scanSign_append]
        dsimp only at hs ⊢
        rw [spanDigits_append h]
        split at hs
        · cases hs
        next digits r' hne heq =>
          cases hs
          obtain ⟨d, ds, rfl⟩ := List.exists_cons_of_ne_nil hne
          rw [heq]
    · rw [if_neg hc] at hs ⊢
      cases hs
      rfl

theorem scanUnsigned_append (h : Breaks rest) {negative : Bool} {cs r : List Char} {n : Numeral}
    (hs : scanUnsigned negative cs = some (n, r)) : scanUnsigned negative (cs ++ rest) = some (n, r ++ rest) := by
  unfold scanUnsigned at hs ⊢
  rw [spanDigits_append h]
  simp only at hs ⊢
  split at hs
  · cases hs
  next hne =>
    rw [if_neg hne]
    split at hs
    · cases hs
    next hzero =>
      rw [if_neg hzero]
      obtain ⟨⟨fraction, r₁⟩, hf, hs⟩ := Option.bind_eq_some_iff.1 hs
      obtain ⟨⟨exponent, r₂⟩, he, hs⟩ := Option.bind_eq_some_iff.1 hs
      cases hs
      simp only [scanFraction_append h hf, Option.bind_eq_bind, Option.bind_some, scanExponent_append h he]

/-- A numeral is read the same whatever follows it. -/
theorem scan_append (h : Breaks rest) {cs r : List Char} {n : Numeral} (hs : scan cs = some (n, r)) :
    scan (cs ++ rest) = some (n, r ++ rest) := by
  rcases cs with _ | ⟨c, cs⟩
  · cases hs
  · by_cases hc : c = '-'
    · subst hc
      have unsigned : scanUnsigned true cs = some (n, r) := hs
      exact scanUnsigned_append h unsigned
    · have plain (cs : List Char) : scan (c :: cs) = scanUnsigned false (c :: cs) := by
        unfold scan
        split
        next heq => cases heq; exact absurd rfl hc
        next => rfl
      rw [plain] at hs
      rw [List.cons_append, plain]
      exact scanUnsigned_append h hs

/-- A numeral starts with its sign or a digit. -/
theorem head_of_scan {c : Char} {cs : List Char} (h : (scan (c :: cs)).isSome = true) : c = '-' ∨ c.isDigit = true := by
  by_cases hc : c = '-'
  · exact .inl hc
  · refine .inr ((Bool.eq_false_or_eq_true _).resolve_right fun hd => ?_)
    have none : scan (c :: cs) = none := by
      have span : spanDigits (c :: cs) = ([], c :: cs) := by simp [spanDigits, hd]
      unfold scan
      split
      next heq => cases heq; exact absurd rfl hc
      next => rw [scanUnsigned, span]; rfl
    rw [none] at h
    cases h

end Numeral

end Json

/-! ## Numbers -/

namespace Number

open Json Numeral

/-- A number whose text is read as itself. -/
def ReadsBack (n : Number) : Prop := ∃ numeral, scan n.render.toList = some (numeral, []) ∧ numeral.value = some n

theorem scanUnsigned_toDigits (negative : Bool) (n : Nat) :
    scanUnsigned negative (Nat.toDigits 10 n) = some (⟨negative, digitsOf n, [], none⟩, []) := by
  have all : ∀ c ∈ Nat.toDigits 10 n, c.isDigit = true :=
    fun c hc => Nat.isDigit_of_mem_toDigits (by decide) (by decide) hc
  have span : spanDigits (Nat.toDigits 10 n) = (digitsOf n, []) := by
    have taken : (Nat.toDigits 10 n ++ []).takeWhile Char.isDigit = _ := List.takeWhile_append_of_pos all
    have dropped : (Nat.toDigits 10 n ++ []).dropWhile Char.isDigit = _ := List.dropWhile_append_of_pos all
    rw [List.append_nil] at taken dropped
    unfold spanDigits digitsOf
    rw [taken, dropped]
    simp
  have lead : ¬ ((digitsOf n).head? = some 0 ∧ (digitsOf n).length ≠ 1) := by
    rintro ⟨hzero, hlong⟩
    rcases Nat.eq_zero_or_pos n with rfl | hpos
    · exact hlong rfl
    · exact head?_digitsOf hpos hzero
  have some : ¬ (digitsOf n).isEmpty = true := by simp [digitsOf]
  unfold scanUnsigned
  rw [span]
  simp only [if_neg some, if_neg lead]
  rfl

/-- The integers of the data format are read back. -/
theorem readsBack_int {i : Int} (low : -0x8000000000000000 ≤ i) (high : i ≤ 0xFFFFFFFFFFFFFFFF) :
    (int i).ReadsBack := by
  have bound : i.natAbs ≤ significandMax := by unfold significandMax; omega
  have whole := ofWhole_digitsOf bound
  by_cases hneg : i < 0
  · refine ⟨⟨true, digitsOf i.natAbs, [], none⟩, ?_, ?_⟩
    · have text : (int i).render.toList = '-' :: Nat.toDigits 10 i.natAbs := by simp [render, hneg]
      rw [text]
      exact scanUnsigned_toDigits true i.natAbs
    · have size : 0 < i.natAbs ∧ i.natAbs ≤ 0x8000000000000000 := by omega
      have back : -(i.natAbs : Int) = i := by omega
      unfold Numeral.value
      simp only [whole, List.isEmpty_nil, Option.isNone_none, Bool.and_self, decide_true, if_true, Bool.not_true,
        Bool.false_eq_true, if_false, if_pos size, back]
  · refine ⟨⟨false, digitsOf i.natAbs, [], none⟩, ?_, ?_⟩
    · have text : (int i).render.toList = Nat.toDigits 10 i.natAbs := by simp [render, hneg]
      rw [text]
      have digit : ∀ c ∈ Nat.toDigits 10 i.natAbs, c ≠ '-' := by
        rintro c hc rfl
        exact absurd (Nat.isDigit_of_mem_toDigits (by decide) (by decide) hc) (by decide)
      unfold scan
      split
      next heq => rw [heq] at digit; exact absurd rfl (digit '-' (List.mem_cons_self ..))
      next => exact scanUnsigned_toDigits false i.natAbs
    · have back : (i.natAbs : Int) = i := by omega
      unfold Numeral.value
      simp only [whole, List.isEmpty_nil, Option.isNone_none, Bool.and_self, decide_true, if_true, Bool.not_false, back]

end Number

/-! ## Quoted texts -/

namespace Json.Draft

/-- What a written character is read as. -/
def pieceOf (c : Char) : Piece :=
  if c.toNat < 32 ∧ c ∉ ['\x08', '\x0c', '\n', '\r', '\t'] then .code c.toNat else .char c

theorem pieceOf_cases (c : Char) : (c.toNat < 32 ∧ pieceOf c = .code c.toNat) ∨ pieceOf c = .char c := by
  unfold pieceOf
  split
  next h => exact .inl ⟨h.1, rfl⟩
  next => exact .inr rfl

/-- A control character that has no escape of its own is written by its code. -/
theorem hexCode?_hexPair {n : Nat} (h : n < 32) :
    hexCode? '0' '0' (Nat.digitChar (n / 16)) (Nat.digitChar (n % 16)) = some n := by
  revert n
  decide

/-- A character with an escape of its own. -/
theorem scanPieces_short {e c : Char} (he : escaped? e = some c) (hc : pieceOf c = .char c) (cs : List Char) :
    scanPieces ('\\' :: e :: cs) = (scanPieces cs).map fun p => (pieceOf c :: p.1, p.2) := by
  rw [scanPieces.eq_def]
  split
  next heq => cases heq
  next heq => cases heq
  next heq => cases heq; cases he
  next heq =>
    cases heq
    rw [he, hc]
    cases scanPieces cs <;> rfl
  next hne heq => cases heq; exact absurd rfl (hne e cs rfl)

theorem scanPieces_escape (c : Char) (cs : List Char) :
    scanPieces (escape c ++ cs) = (scanPieces cs).map fun p => (pieceOf c :: p.1, p.2) := by
  unfold escape
  iterate 7
    split
    next h => subst h; exact scanPieces_short (by decide) (by decide) cs
  split
  next hlow =>
    have piece : pieceOf c = .code c.toNat := by
      unfold pieceOf
      rw [if_pos]
      simp_all
    simp only [hexPair, List.cons_append, List.nil_append]
    rw [scanPieces, hexCode?_hexPair hlow, piece]
    cases scanPieces cs <;> rfl
  next hquote hback _ _ _ _ _ hhigh =>
    have piece : pieceOf c = .char c := if_neg fun h => hhigh h.1
    rw [List.singleton_append, scanPieces.eq_def, piece]
    split
    next heq => cases heq
    next heq => cases heq; exact absurd rfl hquote
    next heq => cases heq; exact absurd rfl hback
    next heq => cases heq; exact absurd rfl hback
    next heq =>
      cases heq
      rw [if_neg fun h => h.elim hhigh hback]
      cases scanPieces cs <;> rfl

theorem scanPieces_written (cs rest : List Char) :
    scanPieces (cs.flatMap escape ++ '"' :: rest) = some (cs.map pieceOf, rest) := by
  induction cs with
  | nil => rfl
  | cons c cs ih =>
    rw [List.flatMap_cons, List.append_assoc, scanPieces_escape, ih]
    rfl

/-- The code of a control character is no half of a surrogate pair. -/
theorem assemble_code {n : Nat} (h : n < 32) (pieces : List Piece) :
    assemble (.code n :: pieces) = (assemble pieces).map (Char.ofNat n :: ·) := by
  have high : isHighHalf n = false := by simp [isHighHalf]; omega
  have low : isLowHalf n = false := by simp [isLowHalf]; omega
  rcases pieces with _ | ⟨_ | m, pieces⟩
  · simp [assemble, high, low]
  · simp [assemble, high, low]
  · simp [assemble, high, low]

theorem assemble_written (cs : List Char) : assemble (cs.map pieceOf) = some cs := by
  induction cs with
  | nil => rfl
  | cons c cs ih =>
    rw [List.map_cons]
    rcases pieceOf_cases c with ⟨hlow, hp⟩ | hp
    · rw [hp, assemble_code hlow, ih, Char.ofNat_toNat]; rfl
    · rw [hp, assemble, ih]; rfl

/-- A text is read from its quotes. -/
theorem scanString_quote (s : String) (rest : List Char) :
    scanString (s.toList.flatMap escape ++ '"' :: rest) = some (some s, rest) := by
  unfold scanString
  rw [scanPieces_written]
  simp [assemble_written]

end Json.Draft

end StepTimer
