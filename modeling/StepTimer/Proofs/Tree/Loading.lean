/-
Making a tree from nested steps loses none of them. The nested steps of the tree are the given ones in shape, order and
settings; going through them from the top down, each name is kept where it comes first and exchanged for a fresh one
where it comes again. So the names of the tree are distinct, and it has the steps as they were given exactly when the
given names are.
-/
import StepTimer.Proofs.Tree.Views

namespace StepTimer

namespace Step

/-! ## Names in order -/

/-- The names of a list, where each one that is used, or stands in the list before, is exchanged for a fresh one. -/
def namesAmong (source : IdSource) (used : List StepId) : List StepId → List StepId × IdSource
  | [] => ([], source)
  | x :: rest =>
    let (y, source) := nameAmong source used x
    let (rest, source) := namesAmong source (used ++ [y]) rest
    (y :: rest, source)

variable {source : IdSource} {used : List StepId} {x : StepId}

theorem namesAmong_cons (source : IdSource) (used : List StepId) (x : StepId) (rest : List StepId) :
    namesAmong source used (x :: rest) =
      ((nameAmong source used x).1 ::
          (namesAmong (nameAmong source used x).2 (used ++ [(nameAmong source used x).1]) rest).1,
        (namesAmong (nameAmong source used x).2 (used ++ [(nameAmong source used x).1]) rest).2) := by
  rw [namesAmong]

theorem namesAmong_append (a b : List StepId) : ∀ (source : IdSource) (used : List StepId),
    namesAmong source used (a ++ b) =
      ((namesAmong source used a).1 ++
          (namesAmong (namesAmong source used a).2 (used ++ (namesAmong source used a).1) b).1,
        (namesAmong (namesAmong source used a).2 (used ++ (namesAmong source used a).1) b).2) := by
  induction a with
  | nil => intro source used; simp [namesAmong]
  | cons x rest ih =>
    intro source used
    rw [List.cons_append, namesAmong_cons, namesAmong_cons, ih]
    simp only [List.append_assoc, List.cons_append, List.nil_append]

mutual

/-- The names of a step are exchanged in the order in which they stand in it. -/
theorem ids_renamedIn : ∀ (s : Step) (source : IdSource) (used : List StepId),
    namesAmong source used s.ids = ((renamedIn source used s).1.ids, (renamedIn source used s).2)
  | leaf id a, source, used => by simp only [ids, namesAmong, renamedIn]
  | block id f children, source, used => by
    rw [ids, namesAmong_cons, idsOf_renamed children, renamedIn_block, ids]

theorem idsOf_renamed : ∀ (steps : List Step) (source : IdSource) (used : List StepId),
    namesAmong source used (idsOf steps) = (idsOf (renamed source used steps).1, (renamed source used steps).2)
  | [], _, _ => rfl
  | s :: rest, source, used => by
    rw [idsOf, namesAmong_append, ids_renamedIn s, idsOf_renamed rest, renamed_cons, idsOf]

end

theorem nameAmong_of_mem (h : x ∈ used) : nameAmong source used x = source.next := if_pos h

/-- A name stays where it comes first, and a fresh one stands where it comes again. Whether it came before is a question
about the given names only, for the fresh ones are none of them. -/
theorem getElem?_namesAmong : ∀ {names : List StepId} (source : IdSource) (used seen : List StepId) {i : Nat}
    {x : StepId}, source.Fresh names → (∀ z ∈ names, z ∈ used ↔ z ∈ seen) → names[i]? = some x →
      (x ∉ seen ++ names.take i → (namesAmong source used names).1[i]? = some x) ∧
        (x ∈ seen ++ names.take i →
          ∃ n, source.issued ≤ n ∧ (namesAmong source used names).1[i]? = some (source.issue n))
  | [], _, _, _, _, _, _, _, hx => by simp at hx
  | c :: rest, source, used, seen, 0, x, _, same, hx => by
    rw [List.getElem?_cons_zero, Option.some.injEq] at hx
    subst hx
    rw [List.take_zero, List.append_nil, ← same c (List.mem_cons_self ..), namesAmong_cons]
    refine ⟨fun new => ?_, fun old => ⟨source.issued, Nat.le_refl _, ?_⟩⟩
    · rw [nameAmong_of_not_mem new]; rfl
    · rw [nameAmong_of_mem old]; rfl
  | c :: rest, source, used, seen, i + 1, x, hf, same, hx => by
    rw [List.getElem?_cons_succ] at hx
    rw [List.take_succ_cons, namesAmong_cons, List.getElem?_cons_succ, List.append_cons]
    have others : ∀ z ∈ rest, z ∈ used ↔ z ∈ seen := fun z hz => same z (List.mem_cons_of_mem _ hz)
    have fresh : source.Fresh rest := hf.mono fun z hz => List.mem_cons_of_mem _ hz
    by_cases old : c ∈ used
    · have seen_c : c ∈ seen := (same c (List.mem_cons_self ..)).1 old
      rw [nameAmong_of_mem old]
      have later := getElem?_namesAmong source.next.2 (used ++ [source.next.1]) (seen ++ [c])
        (fresh.next.mono fun z hz => List.mem_cons_of_mem _ hz) (fun z hz => ?_) hx
      · refine ⟨later.1, fun h => ?_⟩
        obtain ⟨n, hn, hget⟩ := later.2 h
        exact ⟨n, Nat.le_of_succ_le hn, hget⟩
      · -- the fresh name is not given, and the given one is no news
        have given : z ≠ source.next.1 := by
          rintro rfl
          exact fresh.next_not_mem hz
        simp only [List.mem_append, List.mem_singleton, given, or_false, others z hz]
        exact ⟨.inl, fun h => h.elim (fun h => h) fun h => h ▸ seen_c⟩
    · rw [nameAmong_of_not_mem old]
      refine getElem?_namesAmong source _ _ fresh (fun z hz => ?_) hx
      simp only [List.mem_append, List.mem_singleton, others z hz]

/-! ## The shape -/

mutual

theorem unnamed_renamedIn : ∀ (s : Step) (source : IdSource) (used : List StepId),
    (renamedIn source used s).1.unnamed = s.unnamed
  | leaf _ _, _, _ => rfl
  | block _ f children, source, used => by
    rw [renamedIn_block, unnamed, unnamed, unnamedEach_renamed children]

/-- Renaming leaves the shape. -/
theorem unnamedEach_renamed : ∀ (steps : List Step) (source : IdSource) (used : List StepId),
    unnamedEach (renamed source used steps).1 = unnamedEach steps
  | [], _, _ => rfl
  | s :: rest, source, used => by
    rw [renamed_cons, unnamedEach, unnamedEach, unnamed_renamedIn s, unnamedEach_renamed rest]

end

end Step

namespace StepTree

variable {source : IdSource} {steps : List Step}

/-- The nested steps of the tree that is made from some are these, renamed where a name comes again. -/
theorem toSteps_ofSteps (hf : source.Fresh (Step.idsOf steps)) :
    (ofSteps source steps).1.toSteps = (Step.renamed source [] steps).1 := by
  have hw := wf_ofSteps steps hf
  have keys := (names_addRoots steps source empty).1
  have distinct := hw.nodupKeys
  rw [ofSteps, keys] at distinct
  obtain ⟨bears, roots, -⟩ := bearing_addRoots steps source empty distinct
  exact hw.toSteps_eq roots bears

/-- A tree that is made from nested steps has them all, in their shape and with their settings. A name stays with the
first step that has it, from the top down, and each further one gets a fresh name; so the names are distinct, and the
steps are the given ones exactly when the given names were distinct. -/
theorem loading_loses_nothing (source : IdSource) (steps : List Step) (hf : source.Fresh (Step.idsOf steps)) :
    let made := (ofSteps source steps).1
    Step.unnamedEach made.toSteps = Step.unnamedEach steps ∧
      (∀ i x, (Step.idsOf steps)[i]? = some x →
        (x ∉ (Step.idsOf steps).take i → (Step.idsOf made.toSteps)[i]? = some x) ∧
        (x ∈ (Step.idsOf steps).take i →
          ∃ n, source.issued ≤ n ∧ (Step.idsOf made.toSteps)[i]? = some (source.issue n))) ∧
      (Step.idsOf made.toSteps).Nodup ∧
      Step.count made.toSteps = Step.count steps ∧ made.count = Step.count steps ∧
      (made.toSteps = steps ↔ (Step.idsOf steps).Nodup) := by
  intro made
  have hw : made.WF := wf_ofSteps steps hf
  have same : made.toSteps = (Step.renamed source [] steps).1 := toSteps_ofSteps hf
  have shape : Step.unnamedEach made.toSteps = Step.unnamedEach steps := by rw [same, Step.unnamedEach_renamed]
  have count : Step.count made.toSteps = Step.count steps := by
    rw [← Step.count_unnamedEach, shape, Step.count_unnamedEach]
  refine ⟨shape, fun i x hx => ?_, hw.nodup_toSteps, count, ?_, fun h => ?_, fun h => ?_⟩
  · -- at the first step no name is used and none has been seen
    have names := congrArg Prod.fst (Step.idsOf_renamed steps source [])
    have place := Step.getElem?_namesAmong source [] [] hf (fun _ _ => Iff.rfl) hx
    rwa [names, ← same] at place
  · rw [hw.count_toSteps, count]
  · rw [← h]; exact hw.nodup_toSteps
  · have own : ([] ++ Step.idsOf steps).Nodup := h
    rw [same, Step.renamed_of_nodup own]

/-- A loop, the step in it and another loop have one name, and so have a step in each of them. -/
theorem loading_loses_nothing_repeated :
    let steps := [Step.block "a" (.loop .infinite) [.leaf "a" .unknown, .leaf "b" .unknown],
      .block "a" (.loop .infinite) [.leaf "b" .unknown]]
    let made := (ofSteps (dollars 1) steps).1
    (dollars 1).Fresh (Step.idsOf steps) ∧ Step.idsOf steps = ["a", "a", "b", "a", "b"] ∧
      Step.idsOf made.toSteps = ["a", "$$", "b", "$$$", "$$$$"] ∧ (Step.idsOf made.toSteps)[2]? = some "b" ∧
      (∃ n, (Step.idsOf made.toSteps)[4]? = some ((dollars 1).issue n)) ∧ made.toSteps ≠ steps := by
  intro steps made
  have fresh : (dollars 1).Fresh (Step.idsOf steps) := dollars_fresh (by decide)
  obtain ⟨-, places, -, -, -, same⟩ := loading_loses_nothing (dollars 1) steps fresh
  obtain ⟨n, -, last⟩ := (places 4 "b" (by rfl)).2 (by decide)
  refine ⟨fresh, by rfl, by rfl, (places 2 "b" (by rfl)).1 (by decide), ⟨n, last⟩, fun h => ?_⟩
  exact absurd (same.1 h) (by decide)

end StepTree

end StepTimer
