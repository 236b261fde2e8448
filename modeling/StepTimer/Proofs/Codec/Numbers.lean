/-
The numbers in a value of the data format. The format holds integers of 64 bits, with or without a
sign, and finite doubles; each of them is finite as a double, so what is read of a value that the
format holds has finite amounts.
-/
import StepTimer.Json.Read
import Mathlib.Tactic.NormNum.Basic

namespace StepTimer

/-! ## Integers as doubles -/

theorem roundQuotient_le {num den k : Nat} (h : num ≤ k * den) : roundQuotient num den ≤ k := by
  have hq : num / den ≤ k := Nat.div_le_of_le_mul (by rwa [Nat.mul_comm])
  have hk : num / den = k → num % den = 0 := by
    intro he
    have hd := Nat.div_add_mod num den
    rw [he, Nat.mul_comm] at hd
    omega
  -- a quotient that is rounded up is below the bound
  unfold roundQuotient
  simp only
  rcases Nat.lt_or_ge (num / den) k with hlt | hge
  · split
    · omega
    · omega
    · split <;> omega
  · have h0 := hk (by omega)
    rw [h0, Nat.mul_zero]
    rcases Nat.eq_zero_or_pos den with hd | hd
    · subst hd; simp
    · rw [Nat.compare_eq_lt.2 hd]; exact hq

namespace Double

theorem isFinite_ofFields {negative : Bool} {e f : Nat} (he : e < 2047) (hf : f < pow2 52) :
    (ofFields negative e f).isFinite = true := by
  have h52 : pow2 52 = 4503599627370496 := rfl
  have h63 : pow2 63 = 9223372036854775808 := rfl
  unfold isFinite exponentField ofFields
  rw [UInt64.toNat_ofNat', h63]
  rw [h52] at hf ⊢
  cases negative <;> simp only [Bool.false_eq_true, if_true, if_false, decide_eq_true_eq] <;> omega

theorem isFinite_ofSignificand {negative : Bool} {m : Nat} {q : Int} (hm : m ≤ pow2 53) (hq : q < 971) :
    (ofSignificand negative m q).isFinite = true := by
  have h52 : pow2 52 = 4503599627370496 := rfl
  have h53 : pow2 53 = 9007199254740992 := rfl
  unfold ofSignificand
  split
  · rw [if_neg (by omega)]
    exact isFinite_ofFields (by omega) (by omega)
  · split
    · exact isFinite_ofFields (by omega) (by assumption)
    · rw [if_neg (by omega)]
      exact isFinite_ofFields (by omega) (by omega)

/-- The double nearest to an integer of at most a hundred bits is finite. -/
theorem isFinite_ofRatio_one {negative : Bool} {n : Nat} (hn : n < 2 ^ 100) :
    (ofRatio negative n 1).isFinite = true := by
  unfold ofRatio
  split
  · exact isFinite_ofFields (by omega) (by decide)
  · rename_i h0
    have hlow : 2 ^ n.log2 ≤ n := Nat.log2_self_le h0
    have hhigh : n < 2 ^ (n.log2 + 1) := Nat.lt_log2_self
    have hlog : n.log2 < 100 := (Nat.log2_lt h0).2 hn
    have guess : ((n.log2 : Int) - Nat.log2 1) = n.log2 := by
      rw [show Nat.log2 1 = 0 by decide]; omega
    have exponent : 1 * pow2 (n.log2 : Int).toNat ≤ n * pow2 (-(n.log2 : Int)).toNat := by
      rw [show (n.log2 : Int).toNat = n.log2 by omega, show (-(n.log2 : Int)).toNat = 0 by omega]
      simpa [pow2] using hlow
    simp only [guess, if_pos exponent]
    refine isFinite_ofSignificand (roundQuotient_le ?_) (by omega)
    -- the significand has as many bits as the integer, shifted to 53
    obtain ⟨a, b, ha, hb, hab⟩ : ∃ a b, (-(max ((n.log2 : Int) - 52) (-1074))).toNat = a ∧
        (max ((n.log2 : Int) - 52) (-1074)).toNat = b ∧ n.log2 + 1 + a = 53 + b := ⟨_, _, rfl, rfl, by omega⟩
    rw [ha, hb, Nat.one_mul]
    calc n * pow2 a ≤ 2 ^ (n.log2 + 1) * 2 ^ a := Nat.mul_le_mul_right _ (Nat.le_of_lt hhigh)
      _ = pow2 53 * pow2 b := by rw [← Nat.pow_add, hab, Nat.pow_add]; rfl

theorem isFinite_ofInt {i : Int} (h : i.natAbs < 2 ^ 100) : (ofInt i).isFinite = true := isFinite_ofRatio_one h

end Double

/-! ## Numbers in values -/

/-- The numbers that the data format holds. -/
def Number.IsHeld : Number → Prop
  | int i => -0x8000000000000000 ≤ i ∧ i ≤ 0xFFFFFFFFFFFFFFFF
  | double x => x.isFinite = true

theorem Number.isFinite_toDouble {n : Number} (h : n.IsHeld) : n.toDouble.isFinite = true := by
  cases n with
  | int i =>
    obtain ⟨hlow, hhigh⟩ := h
    exact Double.isFinite_ofInt (by omega)
  | double x => exact h

namespace Json

mutual

/-- The numbers in a value. -/
def numbers : Json → List Number
  | number n => [n]
  | array items => numbersIn items
  | object members => numbersOf members
  | _ => []

/-- The numbers in the values of a list. -/
def numbersIn : List Json → List Number
  | [] => []
  | j :: js => numbers j ++ numbersIn js

/-- The numbers in the values of the members of a record. -/
def numbersOf : List (String × Json) → List Number
  | [] => []
  | (_, j) :: rest => numbers j ++ numbersOf rest

end

/-- A value all of whose numbers the data format holds. -/
def IsHeld (j : Json) : Prop := ∀ n ∈ j.numbers, n.IsHeld

theorem mem_numbersIn {n : Number} {js : List Json} : n ∈ numbersIn js ↔ ∃ j ∈ js, n ∈ j.numbers := by
  induction js with
  | nil => simp [numbersIn]
  | cons j js ih => simp [numbersIn, ih]

theorem mem_numbersOf {n : Number} {members : List (String × Json)} :
    n ∈ numbersOf members ↔ ∃ m ∈ members, n ∈ m.2.numbers := by
  induction members with
  | nil => simp [numbersOf]
  | cons m members ih => simp [numbersOf, ih]

variable {j : Json} {names : List String} {fs : List Field}

theorem IsHeld.item {items : List Json} (h : (array items).IsHeld) (hj : j ∈ items) : j.IsHeld :=
  fun n hn => h n (mem_numbersIn.2 ⟨j, hj, hn⟩)

theorem IsHeld.member {members : List (String × Json)} (h : (object members).IsHeld) {name : String}
    (hj : (name, j) ∈ members) : j.IsHeld := fun n hn => h n (mem_numbersOf.2 ⟨_, hj, hn⟩)

theorem isFinite_asDouble? {x : Double} (h : j.IsHeld) (hx : j.asDouble? = some x) : x.isFinite = true := by
  cases j with
  | number n => cases hx; exact Number.isFinite_toDouble (h n (by simp [numbers]))
  | _ => cases hx

/-! ## Numbers in fields -/

theorem mem_of_given_memberField {members : List (String × Json)} {name : String}
    (h : memberField members name = .given j) : (name, j) ∈ members := by
  unfold memberField at h
  rcases hl : members.lookup name with _ | j'
  · rw [hl] at h; cases h
  · rw [hl] at h; cases h
    obtain ⟨l₁, l₂, rfl, -⟩ := List.lookup_eq_some_iff.1 hl
    simp

theorem mem_of_given_positionFields : ∀ {names : List String} {items : List Json},
    Field.given j ∈ positionFields names items → j ∈ items
  | [], _, h => by cases h
  | _ :: names, [], h => by
    unfold positionFields at h
    rcases List.mem_cons.1 h with h | h
    · cases h
    · exact mem_of_given_positionFields h
  | _ :: names, i :: items, h => by
    unfold positionFields at h
    rcases List.mem_cons.1 h with h | h
    · cases h; exact List.mem_cons_self ..
    · exact List.mem_cons_of_mem _ (mem_of_given_positionFields h)

theorem held_of_namedFields? {members : List (String × Json)} (hm : (object members).IsHeld)
    (h : namedFields? names members = some fs) (hj : Field.given j ∈ fs) : j.IsHeld := by
  unfold namedFields? at h
  split at h <;> cases h
  obtain ⟨name, -, hf⟩ := List.mem_map.1 hj
  exact hm.member (mem_of_given_memberField hf)

/-- What a record says of its fields holds no other numbers than the record. -/
theorem held_of_fields? {r : Json} (hr : r.IsHeld) (h : r.fields? names = some fs) (hj : Field.given j ∈ fs) :
    j.IsHeld := by
  cases r with
  | object members => exact held_of_namedFields? hr h hj
  | array items =>
    have hl : listedFields? names items = some fs := h
    unfold listedFields? at hl
    split at hl <;> cases hl
    exact hr.item (mem_of_given_positionFields hj)
  | _ => cases h

end Json

end StepTimer
