/-
Fresh names. Names for new steps, timers and laps come from a source that issues one after the
other; the copies made by an edit take theirs from it.
-/
import StepTimer.Step.Basic

namespace StepTimer

/-- A source of names, with the number of names it has issued. -/
structure IdSource where
  issue : Nat → String
  issued : Nat := 0

namespace IdSource

/-- The next name, and the source after it. -/
def next (source : IdSource) : String × IdSource :=
  (source.issue source.issued, { source with issued := source.issued + 1 })

/-- The names still to come differ from each other and from the given ones. -/
structure Fresh (source : IdSource) (used : List String) : Prop where
  injective : ∀ m n, source.issue m = source.issue n → m = n
  unused : ∀ n, source.issued ≤ n → source.issue n ∉ used

end IdSource

namespace Step

mutual

/-- A copy of a step with a fresh name for it and for every step below it. -/
def withFreshIds (source : IdSource) : Step → Step × IdSource
  | leaf _ a =>
    let (id, source) := source.next
    (leaf id a, source)
  | block _ f children =>
    let (id, source) := source.next
    let (children, source) := withFreshIdsEach source children
    (block id f children, source)

/-- A copy of a list of steps with fresh names throughout. -/
def withFreshIdsEach (source : IdSource) : List Step → List Step × IdSource
  | [] => ([], source)
  | s :: rest =>
    let (s, source) := withFreshIds source s
    let (rest, source) := withFreshIdsEach source rest
    (s :: rest, source)

end

end Step

end StepTimer
