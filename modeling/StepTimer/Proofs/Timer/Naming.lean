/-
The names that timers are given. Trimming a text twice is trimming it once; a name that is given for a
requested one is trimmed, is not blank and is none of the existing names. That the search for a number
ends in time is a matter of counting: of more candidates than there are names in use one is free.
-/
import Mathlib.Data.List.DropRight
import Mathlib.Data.List.Nodup
import Mathlib.Data.List.Perm.Subperm
import StepTimer.Proofs.Text.Digits
import StepTimer.Timer.Name

namespace StepTimer

namespace Text

variable {cs : List Char} {c : Char}

theorem trimRight_eq_rdropWhile (cs : List Char) : trimRight cs = cs.rdropWhile isBlank := rfl

/-- What begins and ends with characters that are not blank is not changed by trimming. -/
theorem trimChars_eq_self (first : ∀ c ∈ cs.head?, isBlank c = false) (last : ∀ c ∈ cs.getLast?, isBlank c = false) :
    trimChars cs = cs := by
  have front : cs.dropWhile isBlank = cs := by
    cases cs with
    | nil => rfl
    | cons c rest => exact List.dropWhile_cons_of_neg (by rw [first c rfl]; exact Bool.false_ne_true)
  have back : cs.rdropWhile isBlank = cs :=
    List.rdropWhile_eq_self_iff.2 fun hne => by rw [last _ (List.getLast?_eq_some_getLast hne)]; exact Bool.false_ne_true
  rw [trimChars, front, trimRight_eq_rdropWhile, back]

theorem head?_trimChars (cs : List Char) : ∀ c ∈ (trimChars cs).head?, isBlank c = false := by
  intro c hc
  obtain ⟨rest, hrest⟩ := List.rdropWhile_prefix isBlank (l := cs.dropWhile isBlank)
  rw [trimChars, trimRight_eq_rdropWhile] at hc
  have front : (cs.dropWhile isBlank).head? = some c := by
    rw [← hrest, List.head?_append, Option.mem_def.1 hc]; rfl
  have := List.head?_dropWhile_not isBlank cs
  rwa [front] at this

theorem getLast?_trimChars (cs : List Char) : ∀ c ∈ (trimChars cs).getLast?, isBlank c = false := by
  intro c hc
  rw [trimChars, trimRight_eq_rdropWhile, List.rdropWhile, List.getLast?_reverse] at hc
  have := List.head?_dropWhile_not isBlank (cs.dropWhile isBlank).reverse
  rwa [Option.mem_def.1 hc] at this

/-- Trimming once is enough. -/
theorem trim_trim (s : String) : trim (trim s) = trim s := by
  unfold trim
  rw [String.toList_ofList, trimChars_eq_self (head?_trimChars _) (getLast?_trimChars _)]

theorem trim_eq_self {s : String} (first : ∀ c ∈ s.toList.head?, isBlank c = false)
    (last : ∀ c ∈ s.toList.getLast?, isBlank c = false) : trim s = s := by
  rw [trim, trimChars_eq_self first last, String.ofList_toList]

end Text

namespace TimerName

open Text

variable {base requested name : String} {taken existing : List String} {m n fuel : Nat}

theorem toList_numbered (base : String) (n : Nat) :
    (numbered base n).toList = base.toList ++ ' ' :: Nat.toDigits 10 n := by
  simp [numbered, Nat.repr_eq_ofList_toDigits]

theorem numbered_injective (h : numbered base m = numbered base n) : m = n := by
  have texts := congrArg String.toList h
  rw [toList_numbered, toList_numbered, List.append_cancel_left_eq, List.cons.injEq] at texts
  rw [← Nat.ofDigitChars_ten_toDigits (n := m), texts.2, Nat.ofDigitChars_ten_toDigits]

/-- Behind a trimmed name that is not empty a number leaves nothing to trim. -/
theorem trim_numbered (trimmed : trim base = base) (hne : base ≠ "") : trim (numbered base n) = numbered base n := by
  refine trim_eq_self (fun c hc => ?_) fun c hc => ?_
  · have hbase : base.toList ≠ [] := fun h => hne (String.toList_eq_nil_iff.1 h)
    rw [toList_numbered, List.head?_append_of_ne_nil _ hbase] at hc
    have first := head?_trimChars base.toList
    rw [← String.toList_ofList (l := trimChars base.toList), ← trim, trimmed] at first
    exact first c hc
  · rw [toList_numbered, List.getLast?_append, List.getLast?_cons] at hc
    obtain ⟨d, hd⟩ : ∃ d, (Nat.toDigits 10 n).getLast? = some d :=
      ⟨_, List.getLast?_eq_some_getLast Nat.toDigits_ne_nil⟩
    rw [hd] at hc
    cases hc
    exact isBlank_of_isDigit (Nat.isDigit_of_mem_toDigits (by decide) (by decide) (List.mem_of_getLast? hd))

theorem numbered_ne_empty (base : String) (n : Nat) : numbered base n ≠ "" := by
  intro h
  have := congrArg String.toList h
  rw [toList_numbered] at this
  simp at this

theorem numbered_ne_base (base : String) (n : Nat) : numbered base n ≠ base := by
  intro h
  have texts := congrArg (List.length ∘ String.toList) h
  simp only [Function.comp_apply, toList_numbered, List.length_append, List.length_cons] at texts
  omega

/-- The search stops at the first number that makes the name free, or goes through all that are left in vain. -/
theorem firstFree?_cases (base : String) (taken : List String) : ∀ left n : Nat,
    (∃ k < left, firstFree? base taken left n = some (numbered base (n + k)) ∧ numbered base (n + k) ∉ taken ∧
        ∀ j < k, numbered base (n + j) ∈ taken) ∨
      firstFree? base taken left n = none ∧ ∀ j < left, numbered base (n + j) ∈ taken
  | 0, n => Or.inr ⟨rfl, fun j hj => absurd hj (Nat.not_lt_zero j)⟩
  | left + 1, n => by
    unfold firstFree?
    split
    next found =>
      have shift (j : Nat) : n + (j + 1) = n + 1 + j := by omega
      have beyond {k : Nat} (before : ∀ j < k, numbered base (n + 1 + j) ∈ taken) :
          ∀ j < k + 1, numbered base (n + j) ∈ taken := by
        intro j hj
        rcases j with _ | j
        · exact found
        · rw [shift]; exact before j (by omega)
      rcases firstFree?_cases base taken left (n + 1) with ⟨k, hk, same, free, before⟩ | ⟨none, all⟩
      · refine Or.inl ⟨k + 1, by omega, ?_, ?_, beyond before⟩
        · rw [same, ← shift]
        · rw [shift]; exact free
      · exact Or.inr ⟨none, beyond all⟩
    next free =>
      exact Or.inl ⟨0, Nat.succ_pos left, rfl, free, fun j hj => absurd hj (Nat.not_lt_zero j)⟩

/-- Numbered names in use, with the name itself, are as many names in use. -/
theorem lt_length_of_taken (own : base ∈ taken) (all : ∀ j < m, numbered base (n + j) ∈ taken) : m < taken.length := by
  -- the name itself is no candidate, so it takes one place more than the candidates do
  let candidates := (List.range m).map fun j => numbered base (n + j)
  have distinct : (base :: candidates).Nodup := by
    refine List.nodup_cons.2 ⟨fun h => ?_, List.nodup_range.map fun i j hij => ?_⟩
    · obtain ⟨j, -, hj⟩ := List.mem_map.1 h
      exact numbered_ne_base base _ hj
    · have := numbered_injective hij
      omega
  have inUse : base :: candidates ⊆ taken := by
    refine List.cons_subset.2 ⟨own, fun x hx => ?_⟩
    obtain ⟨j, hj, rfl⟩ := List.mem_map.1 hx
    exact all j (List.mem_range.1 hj)
  have := (List.subperm_of_subset distinct inUse).length_le
  simp only [candidates, List.length_cons, List.length_map, List.length_range] at this
  omega

/-- With as many numbers left as there are names in use the search comes to one that makes the name free. -/
theorem firstFree?_of_le {left : Nat} (own : base ∈ taken) (few : taken.length ≤ left) (n : Nat) : ∃ k,
    firstFree? base taken left n = some (numbered base (n + k)) ∧ k < taken.length ∧ numbered base (n + k) ∉ taken ∧
      ∀ j < k, numbered base (n + j) ∈ taken := by
  rcases firstFree?_cases base taken left n with ⟨k, -, found, free, before⟩ | ⟨-, all⟩
  · exact ⟨k, found, lt_length_of_taken own before, free, before⟩
  · have := lt_length_of_taken own all
    omega

/-- A name that is given for a requested one is trimmed, is not empty, and none of the existing names comes to
it by trimming. -/
theorem unique?_spec (h : unique? requested existing = some name) :
    trim name = name ∧ name ≠ "" ∧ name ∉ existing.map trim := by
  unfold unique? at h
  dsimp only at h
  split at h
  · cases h
  next hne =>
    split at h
    next taken =>
      rcases firstFree?_cases (trim requested) (existing.map trim) numbers 2 with ⟨k, -, same, free, -⟩ | ⟨none, -⟩
      · rw [same] at h
        cases h
        exact ⟨trim_numbered (trim_trim requested) hne, numbered_ne_empty _ _, free⟩
      · rw [none] at h
        cases h
    next free => cases h; exact ⟨trim_trim requested, hne, free⟩

theorem unique?_of_blank (h : trim requested = "") : unique? requested existing = none := by
  unfold unique?
  exact if_pos h

/-- A request that is new is given as it is, but for the blanks at its ends. -/
theorem unique?_of_new (hne : trim requested ≠ "") (new : trim requested ∉ existing.map trim) :
    unique? requested existing = some (trim requested) := by
  unfold unique?
  dsimp only
  rw [if_neg hne, if_neg new]

/-- A request that is taken gets the first number that makes it free. -/
theorem unique?_of_taken (hne : trim requested ≠ "") (own : trim requested ∈ existing.map trim)
    (few : existing.length ≤ numbers) : ∃ k, unique? requested existing = some (numbered (trim requested) (2 + k)) ∧
      k < existing.length ∧ ∀ j < k, numbered (trim requested) (2 + j) ∈ existing.map trim := by
  have hlength : (existing.map trim).length = existing.length := List.length_map trim
  obtain ⟨k, found, hk, -, before⟩ := firstFree?_of_le own (hlength ▸ few) 2
  refine ⟨k, ?_, hlength ▸ hk, before⟩
  unfold unique?
  dsimp only
  rw [if_neg hne, if_pos own, found]

theorem exists_unique? (hne : trim requested ≠ "") (few : existing.length ≤ numbers) :
    ∃ name, unique? requested existing = some name := by
  by_cases own : trim requested ∈ existing.map trim
  · obtain ⟨k, found, -⟩ := unique?_of_taken hne own few
    exact ⟨_, found⟩
  · exact ⟨_, unique?_of_new hne own⟩

/-- The name for a requested one. Only a blank request gets none. Otherwise, beside fewer names than a counter of
32 bits has numbers, the answer is the trimmed request if no existing name comes to it by trimming, and else that
with the least number from two on that makes it free, which is at most one more than there are names. The answer is
trimmed, not blank, free, and is its own answer when it is requested. -/
theorem unique?_least (requested : String) (existing : List String) (few : existing.length < 2147483646) :
    (unique? requested existing = none ↔ trim requested = "") ∧
      (trim requested ≠ "" → ∃ name, unique? requested existing = some name ∧
        (trim requested ∉ existing.map trim → name = trim requested) ∧
        (trim requested ∈ existing.map trim → ∃ n, 2 ≤ n ∧ n ≤ existing.length + 1 ∧
          name = trim requested ++ " " ++ n.repr ∧
          ∀ m, 2 ≤ m → m < n → trim requested ++ " " ++ m.repr ∈ existing.map trim) ∧
        trim name = name ∧ name ≠ "" ∧ name ∉ existing.map trim ∧ unique? name existing = some name) := by
  have enough : existing.length ≤ numbers := Nat.le_of_lt_succ few
  refine ⟨⟨fun none => ?_, unique?_of_blank⟩, fun hne => ?_⟩
  · by_contra hne
    obtain ⟨name, found⟩ := exists_unique? hne enough
    rw [none] at found
    cases found
  · obtain ⟨name, found⟩ := exists_unique? hne enough
    obtain ⟨trimmed, named, free⟩ := unique?_spec found
    refine ⟨name, found, fun new => ?_, fun own => ?_, trimmed, named, free, ?_⟩
    · exact Option.some.inj (found.symm.trans (unique?_of_new hne new))
    · obtain ⟨k, counted, hk, before⟩ := unique?_of_taken hne own enough
      refine ⟨2 + k, by omega, by omega, Option.some.inj (found.symm.trans counted), fun m htwo hm => ?_⟩
      obtain ⟨j, rfl⟩ := Nat.exists_eq_add_of_le htwo
      exact before j (by omega)
    · have again : unique? name existing = some (trim name) := unique?_of_new (by rwa [trimmed]) (by rwa [trimmed])
      rwa [trimmed] at again

/-- Beside two timers for tea the third is number three. -/
theorem unique?_least_thirdTea : (["Tea", " Tea 2", "Laundry"] : List String).length < 2147483646 ∧
    trim "  Tea " = "Tea" ∧ unique? "  Tea " ["Tea", " Tea 2", "Laundry"] = some "Tea 3" ∧
    unique? "Tea 3" ["Tea", " Tea 2", "Laundry"] = some "Tea 3" := by
  have few : (["Tea", " Tea 2", "Laundry"] : List String).length < 2147483646 := by decide
  have answer : unique? "  Tea " ["Tea", " Tea 2", "Laundry"] = some "Tea 3" := by decide
  obtain ⟨-, named⟩ := unique?_least "  Tea " ["Tea", " Tea 2", "Laundry"] few
  obtain ⟨name, found, -, -, -, -, -, again⟩ := named (by decide)
  rw [answer] at found
  cases found
  exact ⟨few, by decide, answer, again⟩

end TimerName

end StepTimer
