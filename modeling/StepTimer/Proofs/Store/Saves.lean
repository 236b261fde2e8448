/-
Saves that overlap. Requests change the registry one at a time and then store it: each waits for the lock
of the store, takes a snapshot of the registry, writes it beside the timers file, puts that in the place of
the file and gives the lock back. Their turns come in any order, and writing and replacing may fail.

The versions of the registry are numbered in the order of the changes, the first one is that before all
changes. The invariant is that the file holds the version that was saved last, that a snapshot is not older
than that version or than the change of its request, and that only the request with the lock is under way
in the store.
-/
import StepTimer.Proofs.App.Refusal
import Mathlib.Logic.Function.Basic
import Mathlib.Logic.Relation

namespace StepTimer

namespace Folder

theorem writeTemp_ok {f f' : Folder} {text : String} (h : f.writeTemp text = .ok f') :
    f' = { f with tmp := some (.text text) } := by
  unfold writeTemp at h
  split at h <;> cases h
  rfl

theorem commit_ok {f f' : Folder} (h : f.commit = .ok f') :
    f' = { f with file := f.tmp, tmp := none } := by
  unfold commit at h
  split at h <;> cases h
  rfl

end Folder

/-- Where a request is, with the number of the version that its own change has made. -/
inductive Saving.Stage where
  /-- It has not changed the registry yet. -/
  | fresh
  | waiting (own : Nat)
  | locked (own : Nat)
  /-- It has its snapshot, the registry of version `seen`. -/
  | holding (own seen : Nat) (timers : List Timer)
  | written (own seen : Nat)
  | landed (own : Nat)
  | failing (own : Nat)
  | returned (own : Nat) (ok : Bool)

namespace Saving.Stage

/-- The version that a request has made. -/
def own? : Stage → Option Nat
  | fresh => none
  | waiting own => some own
  | locked own => some own
  | holding own _ _ => some own
  | written own _ => some own
  | landed own => some own
  | failing own => some own
  | returned own _ => some own

/-- Whether a request has the lock of the store. -/
def hasLock : Stage → Bool
  | locked _ => true
  | holding _ _ _ => true
  | written _ _ => true
  | landed _ => true
  | failing _ => true
  | _ => false

/-- Whether a request has the lock and has not replaced the file, be it not yet or no more. -/
def sparesFile : Stage → Bool
  | landed _ => false
  | g => g.hasLock

/-- Whether a request has replaced the file or has returned. -/
def isOver : Stage → Bool
  | landed _ => true
  | returned _ _ => true
  | _ => false

theorem hasLock_of_sparesFile {g : Stage} (h : g.sparesFile = true) : g.hasLock = true := by
  cases g <;> first | rfl | cases h

end Saving.Stage

/-- The registry and the store, with the requests that save. -/
structure Saving (ι : Type) where
  /-- The registries before the changes that were made, in their order. -/
  past : List (List Timer) := []
  registry : List Timer
  folder : Folder
  /-- The version that replaced the file last. -/
  saved : Nat := 0
  lock : Option ι := none
  stage : ι → Saving.Stage := fun _ => .fresh

namespace Saving

variable {ι : Type} {s s' s'' : Saving ι} {i : ι} {g : Stage} {first : Option FolderItem}

/-! ## Versions -/

/-- The registries in the order of the changes, up to the one that stands. -/
def versions (s : Saving ι) : List (List Timer) := s.past ++ [s.registry]

/-- The text of a version. -/
def textOf (s : Saving ι) (n : Nat) : Option FolderItem := s.versions[n]?.map fun timers => .text (Folder.encode timers)

/-- What the file holds when a version was saved last; the one before all changes was not. -/
def content (first : Option FolderItem) (s : Saving ι) (n : Nat) : Option FolderItem :=
  if n = 0 then first else s.textOf n

theorem textOf_now (s : Saving ι) : s.textOf s.past.length = some (.text (Folder.encode s.registry)) := by
  simp [textOf, versions]

/-- A version stands for good. -/
theorem versions_later (h : s.versions <+: s'.versions) {n : Nat} (hn : n ≤ s.past.length) :
    s'.versions[n]? = s.versions[n]? := by
  have hlt : n < s.versions.length := by simp only [versions, List.length_append, List.length_singleton]; omega
  obtain ⟨rest, hrest⟩ := h
  rw [← hrest, List.getElem?_append_left hlt]

/-! ## The invariant -/

/-- A version that a request has made. -/
def IsOwn (s : Saving ι) (own : Nat) : Prop := 1 ≤ own ∧ own ≤ s.past.length

/-- A version that a request with its own has seen. -/
def IsSeen (s : Saving ι) (own seen : Nat) : Prop := own ≤ seen ∧ s.saved ≤ seen ∧ seen ≤ s.past.length

/-- A stage that agrees with the registry and the store. -/
def Fits (s : Saving ι) : Stage → Prop
  | .fresh => True
  | .waiting own => s.IsOwn own
  | .locked own => s.IsOwn own
  | .holding own seen timers => s.IsOwn own ∧ s.IsSeen own seen ∧ s.versions[seen]? = some timers
  | .written own seen => s.IsOwn own ∧ s.IsSeen own seen ∧ s.folder.tmp = s.textOf seen
  | .landed own => s.IsOwn own ∧ own ≤ s.saved
  | .failing own => s.IsOwn own
  | .returned own ok => s.IsOwn own ∧ (ok = true → own ≤ s.saved)

/-- A state in which the file holds what it should. -/
structure Sound (first : Option FolderItem) (s : Saving ι) : Prop where
  file : s.folder.file = s.content first s.saved
  saved_le : s.saved ≤ s.past.length
  fits : ∀ i, s.Fits (s.stage i)
  lock : ∀ i, (s.stage i).hasLock = true ↔ s.lock = some i
  made : ∀ n, 1 ≤ n → n ≤ s.past.length → ∃ i, (s.stage i).own? = some n

theorem sound_first (registry : List Timer) (folder : Folder) :
    ({ registry := registry, folder := folder } : Saving ι).Sound folder.file where
  file := rfl
  saved_le := Nat.le_refl _
  fits _ := trivial
  lock i := by simp [Stage.hasLock]
  made n hlow hhigh := by simp only [List.length_nil] at hhigh; omega

/-! ### What the turns of others leave -/

/-- The stage of a request without the lock agrees whatever is done in the store. -/
theorem Fits.outside (h : s.Fits g) (hg : g.hasLock = false) (past : s.past.length ≤ s'.past.length)
    (saved : s.saved ≤ s'.saved) : s'.Fits g := by
  cases g with
  | fresh => trivial
  | waiting own => exact ⟨h.1, Nat.le_trans h.2 past⟩
  | returned own ok => exact ⟨⟨h.1.1, Nat.le_trans h.1.2 past⟩, fun hok => Nat.le_trans (h.2 hok) saved⟩
  | locked | holding | written | landed | failing => cases hg

/-- A change of the registry leaves the stages of the other requests. -/
theorem Fits.changed (h : s.Fits g) (past : s.past.length ≤ s'.past.length) (versions : s.versions <+: s'.versions)
    (saved : s'.saved = s.saved) (folder : s'.folder = s.folder) : s'.Fits g := by
  have own {n : Nat} (hn : s.IsOwn n) : s'.IsOwn n := ⟨hn.1, Nat.le_trans hn.2 past⟩
  have seen {m n : Nat} (hn : s.IsSeen m n) : s'.IsSeen m n :=
    ⟨hn.1, saved ▸ hn.2.1, Nat.le_trans hn.2.2 past⟩
  cases g with
  | fresh => trivial
  | waiting => exact own h
  | locked => exact own h
  | holding _ _ _ =>
    obtain ⟨hown, hseen, hv⟩ := h
    exact ⟨own hown, seen hseen, (versions_later versions hseen.2.2).trans hv⟩
  | written _ n =>
    obtain ⟨hown, hseen, ht⟩ := h
    have text : s'.textOf n = s.textOf n := by unfold textOf; rw [versions_later versions hseen.2.2]
    exact ⟨own hown, seen hseen, by rw [folder, ht, text]⟩
  | landed => exact ⟨own h.1, saved ▸ h.2⟩
  | failing => exact own h
  | returned => exact ⟨own h.1, fun hok => saved ▸ h.2 hok⟩

/-- While a request has the lock no other one has it. -/
theorem Sound.alone (h : s.Sound first) (hi : (s.stage i).hasLock = true) {j : ι} (hj : j ≠ i) :
    (s.stage j).hasLock = false := by
  by_contra hne
  have hlock := (h.lock j).1 (by simpa using hne)
  rw [(h.lock i).1 hi] at hlock
  exact hj (Option.some.inj hlock).symm

/-- When all requests that have begun have returned and none has failed, the file holds the registry. -/
theorem Sound.settled (h : s.Sound first) (begun : ∃ i own, s.stage i = .returned own true)
    (settled : ∀ i, s.stage i = .fresh ∨ ∃ own, s.stage i = .returned own true) :
    s.folder.file = some (.text (Folder.encode s.registry)) := by
  obtain ⟨i, own, hi⟩ := begun
  have hown : s.IsOwn own := by
    have := h.fits i
    rw [hi] at this
    exact this.1
  -- the last change was made by a request that has returned, so the file is not older
  obtain ⟨j, hj⟩ := h.made s.past.length (Nat.le_trans hown.1 hown.2) (Nat.le_refl _)
  have last : s.saved = s.past.length := by
    rcases settled j with hfresh | ⟨own', hreturned⟩
    · rw [hfresh] at hj; cases hj
    · have hfits := h.fits j
      rw [hreturned] at hj hfits
      cases hj
      exact Nat.le_antisymm h.saved_le (hfits.2 rfl)
  have begun : s.past.length ≠ 0 := by have := hown.1; have := hown.2; omega
  rw [h.file, content, last, if_neg begun, textOf_now]

/-! ## Turns -/

variable [DecidableEq ι]

/-- The state with a request at another stage. -/
def put (s : Saving ι) (i : ι) (g : Stage) : Saving ι := { s with stage := Function.update s.stage i g }

/-- The turns of a request. -/
inductive Turn (i : ι) (s : Saving ι) : Saving ι → Prop
  | change (f : List Timer → List Timer) (h : s.stage i = .fresh) :
    Turn i s ({ s with past := s.past ++ [s.registry], registry := f s.registry }.put i (.waiting (s.past.length + 1)))
  | acquire {own : Nat} (h : s.stage i = .waiting own) (free : s.lock = none) :
    Turn i s ({ s with lock := some i }.put i (.locked own))
  | snapshot {own : Nat} (h : s.stage i = .locked own) : Turn i s (s.put i (.holding own s.past.length s.registry))
  /-- While the snapshot is written the second file holds a part of it, or anything. -/
  | scribble {own seen : Nat} {timers : List Timer} (left : Option FolderItem)
      (h : s.stage i = .holding own seen timers) :
    Turn i s ({ s with folder := { s.folder with tmp := left } }.put i (.holding own seen timers))
  | write {own seen : Nat} {timers : List Timer} {folder : Folder} (h : s.stage i = .holding own seen timers)
      (done : s.folder.writeTemp (Folder.encode timers) = .ok folder) :
    Turn i s ({ s with folder := folder }.put i (.written own seen))
  | writeFails {own seen : Nat} {timers : List Timer} (h : s.stage i = .holding own seen timers) :
    Turn i s (s.put i (.failing own))
  | replace {own seen : Nat} {folder : Folder} (h : s.stage i = .written own seen)
      (done : s.folder.commit = .ok folder) :
    Turn i s ({ s with folder := folder, saved := seen }.put i (.landed own))
  | replaceFails {own seen : Nat} (h : s.stage i = .written own seen) : Turn i s (s.put i (.failing own))
  | succeed {own : Nat} (h : s.stage i = .landed own) :
    Turn i s ({ s with lock := none }.put i (.returned own true))
  | fail {own : Nat} (h : s.stage i = .failing own) :
    Turn i s ({ s with lock := none }.put i (.returned own false))

/-- What turns of any requests in any order lead to. -/
abbrev Later : Saving ι → Saving ι → Prop := Relation.ReflTransGen fun s s' => ∃ i, Turn i s s'

theorem Later.turn (hl : Later s s') (i : ι) (ht : Turn i s' s'') : Later s s'' := hl.tail ⟨i, ht⟩

/-- What is reached when no request has begun at first. -/
def Reached (registry : List Timer) (folder : Folder) (s : Saving ι) : Prop :=
  Later { registry := registry, folder := folder } s

/-! ### What each turn keeps -/

theorem fits_put {t : Saving ι} (mine : t.Fits g) (others : ∀ j, j ≠ i → t.Fits (t.stage j)) (j : ι) :
    (t.put i g).Fits ((t.put i g).stage j) := by
  show t.Fits (Function.update t.stage i g j)
  by_cases hj : j = i
  · rw [hj, Function.update_self]; exact mine
  · rw [Function.update_of_ne hj]; exact others j hj

theorem lock_put {t : Saving ι} (mine : g.hasLock = true ↔ t.lock = some i)
    (others : ∀ j, j ≠ i → ((t.stage j).hasLock = true ↔ t.lock = some j)) (j : ι) :
    ((t.put i g).stage j).hasLock = true ↔ (t.put i g).lock = some j := by
  show (Function.update t.stage i g j).hasLock = true ↔ t.lock = some j
  by_cases hj : j = i
  · rw [hj, Function.update_self]; exact mine
  · rw [Function.update_of_ne hj]; exact others j hj

/-- A request keeps the version that it has made. -/
theorem made_put {t : Saving ι} (own : (t.stage i).own? = g.own?) {n : Nat} (h : ∃ j, (t.stage j).own? = some n) :
    ∃ j, ((t.put i g).stage j).own? = some n := by
  obtain ⟨j, hj⟩ := h
  refine ⟨j, ?_⟩
  show (Function.update t.stage i g j).own? = some n
  by_cases hji : j = i
  · rw [hji] at hj ⊢; rw [Function.update_self, ← own, hj]
  · rw [Function.update_of_ne hji, hj]

/-- A turn of the request that has the lock, in the store. -/
theorem Sound.inside (h : s.Sound first) {before : Stage} (hs : s.stage i = before) (hi : before.hasLock = true)
    (own : before.own? = g.own?) {t : Saving ι} (past : t.past = s.past) (stage : t.stage = s.stage)
    (file : t.folder.file = t.content first t.saved) (saved : s.saved ≤ t.saved ∧ t.saved ≤ t.past.length)
    (mine : t.Fits g) (lock : t.lock = if g.hasLock then s.lock else none) : (t.put i g).Sound first := by
  subst hs
  have held : s.lock = some i := (h.lock i).1 hi
  constructor
  case file => exact file
  case saved_le => exact saved.2
  case fits =>
    refine fits_put mine fun j hj => ?_
    rw [stage]
    exact (h.fits j).outside (h.alone hi hj) (Nat.le_of_eq (by rw [past])) saved.1
  case lock =>
    refine lock_put ?_ fun j hj => ?_
    · rw [lock, held]; split <;> simp_all
    · rw [stage, h.alone hi hj, lock, held]
      have hne : i ≠ j := fun he => hj he.symm
      split <;> simp [hne]
  case made =>
    intro n hlow hhigh
    refine made_put (by rw [stage, own]) ?_
    rw [stage]
    exact h.made n hlow (by rwa [← past])

/-- A change of the registry makes the next version. -/
theorem Sound.change (h : s.Sound first) (hs : s.stage i = .fresh) (f : List Timer → List Timer) :
    ({ s with past := s.past ++ [s.registry], registry := f s.registry }.put i
      (.waiting (s.past.length + 1))).Sound first := by
  generalize ht : ({ s with past := s.past ++ [s.registry], registry := f s.registry } : Saving ι) = t
  have stage : t.stage = s.stage := by rw [← ht]
  have lock : t.lock = s.lock := by rw [← ht]
  have saved : t.saved = s.saved := by rw [← ht]
  have folder : t.folder = s.folder := by rw [← ht]
  have past : t.past.length = s.past.length + 1 := by rw [← ht]; simp
  have versions : s.versions <+: t.versions := by rw [← ht]; exact List.prefix_append ..
  constructor
  case file =>
    show t.folder.file = t.content first t.saved
    rw [folder, h.file, saved]
    unfold content textOf
    rw [versions_later versions h.saved_le]
  case saved_le =>
    show t.saved ≤ t.past.length
    have := h.saved_le
    omega
  case fits =>
    refine fits_put ?_ fun j _ => ?_
    · exact ⟨by omega, by omega⟩
    · rw [stage]
      exact (h.fits j).changed (by omega) versions saved folder
  case lock =>
    refine lock_put ?_ fun j _ => ?_
    · have hi := h.lock i
      rw [hs] at hi
      rw [lock]; exact hi
    · rw [stage, lock]; exact h.lock j
  case made =>
    intro n hlow hhigh
    have hn : n ≤ t.past.length := hhigh
    by_cases hlast : n = s.past.length + 1
    · refine ⟨i, ?_⟩
      show (Function.update t.stage i _ i).own? = some n
      rw [Function.update_self, hlast]; rfl
    · obtain ⟨j, hj⟩ := h.made n hlow (by omega)
      refine ⟨j, ?_⟩
      show (Function.update t.stage i _ j).own? = some n
      rw [stage]
      by_cases hji : j = i
      · rw [hji, hs] at hj; cases hj
      · rw [Function.update_of_ne hji]; exact hj

/-- The lock goes to a request when no one has it. -/
theorem Sound.acquire (h : s.Sound first) {own : Nat} (hs : s.stage i = .waiting own) (free : s.lock = none) :
    ({ s with lock := some i }.put i (.locked own)).Sound first := by
  have none : ∀ j, (s.stage j).hasLock = false := by
    intro j
    by_contra hne
    have hlock := (h.lock j).1 (by simpa using hne)
    rw [free] at hlock; cases hlock
  have mine := h.fits i
  rw [hs] at mine
  constructor
  case file => exact h.file
  case saved_le => exact h.saved_le
  case fits => exact fits_put mine fun j _ => (h.fits j).outside (none j) (Nat.le_refl _) (Nat.le_refl _)
  case lock =>
    refine lock_put ?_ fun j hj => ?_
    · simp [Stage.hasLock]
    · have hne : i ≠ j := fun he => hj he.symm
      simp [none j, hne]
  case made =>
    intro n hlow hhigh
    refine made_put ?_ (h.made n hlow hhigh)
    show (s.stage i).own? = _
    rw [hs]; rfl

/-- Every turn leaves a sound state sound. -/
theorem Sound.turn (h : s.Sound first) (ht : Turn i s s') : s'.Sound first := by
  have mine := h.fits i
  have saved : s.saved ≤ s.saved ∧ s.saved ≤ s.past.length := ⟨Nat.le_refl _, h.saved_le⟩
  cases ht with
  | change f hs => exact h.change hs f
  | acquire hs free => exact h.acquire hs free
  | snapshot hs =>
    rw [hs] at mine
    have now : s.versions[s.past.length]? = some s.registry := by simp [versions]
    exact h.inside hs rfl (by rfl) (by rfl) (by rfl) h.file saved ⟨mine, ⟨mine.2, saved.2, Nat.le_refl _⟩, now⟩ rfl
  | scribble left hs =>
    rw [hs] at mine
    exact h.inside hs rfl (by rfl) (by rfl) (by rfl) h.file saved mine rfl
  | @write own seen timers _ hs done =>
    rw [hs] at mine
    obtain ⟨hown, hseen, hv⟩ := mine
    have text : s.textOf seen = some (.text (Folder.encode timers)) := by rw [textOf, hv]; rfl
    cases Folder.writeTemp_ok done
    exact h.inside hs rfl (by rfl) (by rfl) (by rfl) h.file saved ⟨hown, hseen, text.symm⟩ rfl
  | writeFails hs =>
    rw [hs] at mine
    exact h.inside hs rfl (by rfl) (by rfl) (by rfl) h.file saved mine.1 rfl
  | @replace own seen _ hs done =>
    rw [hs] at mine
    obtain ⟨hown, hseen, htmp⟩ := mine
    have later : seen ≠ 0 := by have := hown.1; have := hseen.1; omega
    have lands : s.folder.tmp = s.content first seen := by rw [content, if_neg later, htmp]
    cases Folder.commit_ok done
    exact h.inside hs rfl (by rfl) (by rfl) (by rfl) lands hseen.2 ⟨hown, hseen.1⟩ rfl
  | replaceFails hs =>
    rw [hs] at mine
    exact h.inside hs rfl (by rfl) (by rfl) (by rfl) h.file saved mine.1 rfl
  | succeed hs =>
    rw [hs] at mine
    exact h.inside hs rfl (by rfl) (by rfl) (by rfl) h.file saved ⟨mine.1, fun _ => mine.2⟩ rfl
  | fail hs =>
    rw [hs] at mine
    exact h.inside hs rfl (by rfl) (by rfl) (by rfl) h.file saved ⟨mine, fun hok => by cases hok⟩ rfl

/-! ## Runs -/

theorem Sound.later (h : s.Sound first) (hl : Later s s') : s'.Sound first := by
  induction hl with
  | refl => exact h
  | tail _ ht ih =>
    obtain ⟨i, ht⟩ := ht
    exact ih.turn ht

/-- The file goes forward, and so does the registry. -/
structure Forward (s s' : Saving ι) : Prop where
  saved : s.saved ≤ s'.saved
  versions : s.versions <+: s'.versions

theorem Sound.forward (h : s.Sound first) (ht : Turn i s s') : s.Forward s' := by
  have mine := h.fits i
  have same : s.versions <+: s.versions := List.prefix_refl _
  cases ht with
  | change f hs => exact ⟨Nat.le_refl _, List.prefix_append ..⟩
  | replace hs done =>
    rw [hs] at mine
    exact ⟨mine.2.1.2.1, same⟩
  | _ => exact ⟨Nat.le_refl _, same⟩

theorem Sound.forward_later (h : s.Sound first) (hl : Later s s') : s.Forward s' := by
  induction hl with
  | refl => exact ⟨Nat.le_refl _, List.prefix_refl _⟩
  | tail hl ht ih =>
    obtain ⟨i, ht⟩ := ht
    have step := (h.later hl).forward ht
    exact ⟨Nat.le_trans ih.saved step.saved, ih.versions.trans step.versions⟩

@[simp] theorem stage_put (t : Saving ι) (i j : ι) (g : Stage) :
    (t.put i g).stage j = if j = i then g else t.stage j := Function.update_apply ..

theorem stage_put_self (t : Saving ι) (i : ι) (g : Stage) : (t.put i g).stage i = g := Function.update_self ..

/-- A request that is over stays so. -/
theorem isOver_turn {j : ι} (hi : (s.stage i).isOver = true) (ht : Turn j s s') : (s'.stage i).isOver = true := by
  by_cases hij : i = j
  · subst hij
    cases ht with
    | succeed hs => simp [Stage.isOver]
    | change _ hs | acquire hs _ | snapshot hs | scribble _ hs | write hs _ | writeFails hs | replace hs _
      | replaceFails hs | fail hs => rw [hs] at hi; cases hi
  · cases ht <;> simpa [hij] using hi

/-- While a request has the lock and does not replace the file, the file stays as it is. -/
theorem Sound.spares_turn (h : s.Sound first) {j : ι} (hi : (s.stage i).sparesFile = true) (ht : Turn j s s') :
    ((s'.stage i).sparesFile = true ∧ s'.folder.file = s.folder.file) ∨ (s'.stage i).isOver = true := by
  by_cases hij : i = j
  · subst hij
    cases ht with
    | snapshot hs => exact .inl ⟨by simp [Stage.sparesFile, Stage.hasLock], rfl⟩
    | scribble left hs => exact .inl ⟨by simp [Stage.sparesFile, Stage.hasLock], rfl⟩
    | write hs done =>
      cases Folder.writeTemp_ok done
      exact .inl ⟨by simp [Stage.sparesFile, Stage.hasLock], rfl⟩
    | writeFails hs => exact .inl ⟨by simp [Stage.sparesFile, Stage.hasLock], rfl⟩
    | replace hs done => exact .inr (by simp [Stage.isOver])
    | replaceFails hs => exact .inl ⟨by simp [Stage.sparesFile, Stage.hasLock], rfl⟩
    | fail hs => exact .inr (by simp [Stage.isOver])
    | change _ hs | acquire hs _ | succeed hs => rw [hs] at hi; cases hi
  · -- another request has no lock, so that it does not get to the file
    have other := h.alone (Stage.hasLock_of_sparesFile hi) (Ne.symm hij)
    cases ht with
    | change f hs => exact .inl ⟨by simpa [hij] using hi, rfl⟩
    | acquire hs free => exact .inl ⟨by simpa [hij] using hi, rfl⟩
    | snapshot hs | scribble _ hs | write hs _ | writeFails hs | replace hs _ | replaceFails hs | succeed hs
      | fail hs => rw [hs] at other; cases other

/-- The file is as it was when a request got the lock, for as long as the request does not replace it. -/
theorem Sound.spares_later (h : s.Sound first) (hi : (s.stage i).sparesFile = true) (hl : Later s s') :
    ((s'.stage i).sparesFile = true ∧ s'.folder.file = s.folder.file) ∨ (s'.stage i).isOver = true := by
  induction hl with
  | refl => exact .inl ⟨hi, rfl⟩
  | tail hl ht ih =>
    obtain ⟨j, ht⟩ := ht
    rcases ih with ⟨spares, same⟩ | ended
    · rcases (h.later hl).spares_turn spares ht with ⟨spares', same'⟩ | ended
      · exact .inl ⟨spares', same'.trans same⟩
      · exact .inr ended
    · exact .inr (isOver_turn ended ht)

/-- A save that fails leaves the file as it was. -/
theorem Sound.failed (h : s.Sound first) (hi : (s.stage i).sparesFile = true) (hl : Later s s') (ht : Turn i s' s'')
    {own : Nat} (failed : s''.stage i = .returned own false) : s''.folder.file = s.folder.file := by
  have before := h.spares_later hi hl
  cases ht with
  | fail hs =>
    rcases before with ⟨-, same⟩ | ended
    · exact same
    · rw [hs] at ended; cases ended
  | _ => simp at failed

/-! ## A request by itself -/

/-- The turns in the store of a request that is not disturbed, from its change to its answer, save as the folder
does. -/
theorem later_store {s₀ : Saving ι} (hl : Later s₀ s) {own : Nat} (hs : s.stage i = .waiting own)
    (free : s.lock = none) :
    ∃ s' : Saving ι, Later s₀ s' ∧ s'.registry = s.registry ∧ s'.folder = (s.folder.save s.registry).2 ∧
      s'.lock = none ∧ s'.stage = Function.update s.stage i (.returned own (s.folder.save s.registry).1.isOk) := by
  have locked := hl.turn i (.acquire hs free)
  have holding := locked.turn i (.snapshot (stage_put_self ..))
  unfold Folder.save
  cases hw : s.folder.writeTemp (Folder.encode s.registry) with
  | error e =>
    have failing := holding.turn i (.writeFails (stage_put_self ..))
    exact ⟨_, failing.turn i (.fail (stage_put_self ..)), rfl, rfl, rfl, by simp [put]; rfl⟩
  | ok written =>
    have wrote := holding.turn i (.write (stage_put_self ..) hw)
    cases hc : written.commit with
    | error e =>
      have failing := wrote.turn i (.replaceFails (stage_put_self ..))
      exact ⟨_, failing.turn i (.fail (stage_put_self ..)), rfl, by simp [hc, put], rfl, by simp [hc, put]; rfl⟩
    | ok folder =>
      have landed := wrote.turn i (.replace (stage_put_self ..) hc)
      exact ⟨_, landed.turn i (.succeed (stage_put_self ..)), rfl, by simp [hc, put], rfl, by simp [hc, put]; rfl⟩

/-- A request to the application leaves the timers and the folder, or it does what the turns of a request do
that is not disturbed, from the change of the registry to the answer. -/
theorem later_perform (a : App) (now : Instant) (c : Command) (folder : Folder) (ha : a.store = some folder) (i : ι) :
    ((a.perform now c).2.timers = a.timers ∧ (a.perform now c).2.store = some folder) ∨
      ∃ s' : Saving ι, Reached a.timers folder s' ∧ s'.registry = (a.perform now c).2.timers ∧
        (a.perform now c).2.store = some s'.folder ∧ s'.stage i = .returned 1 (a.perform now c).1.isOk := by
  cases App.comes_perform a now c with
  | refused e ids early h =>
    have ha' : a.perform now c = (.error e, { a with ids := ids }) := h a.store
    rw [ha']; exact .inl ⟨rfl, ha⟩
  | answered b x same h =>
    have ha' : a.perform now c = (.ok x, b.keptIn a.store) := h a.store
    rw [ha']; exact .inl ⟨same, ha⟩
  | stored b x revised h =>
    have ha' : a.perform now c = (b.keptIn (some folder)).stored x := by rw [← ha]; exact h a.store
    have changed := Later.turn (s := { registry := a.timers, folder := folder }) .refl i
      (.change (fun _ => b.timers) rfl)
    obtain ⟨s', hl, hr, hf, -, hs⟩ := later_store changed (stage_put_self ..) rfl
    rw [ha', App.stored_eq]
    refine .inr ⟨s', hl, hr, by rw [hf]; rfl, ?_⟩
    rw [hs, Function.update_self]
    show Stage.returned 1 (folder.save b.timers).1.isOk =
      .returned 1 (((folder.save b.timers).1.mapError AppError.storage).map fun _ => x).isOk
    rcases (folder.save b.timers).1 with e | u <;> rfl

/-! ## Saves that overlap -/

/-- Saves that overlap, in any order of their turns. The file holds what it held at first or the whole of a
version of the registry; the versions go forward, as the registry does; a request that returns with success
finds its own change, or a later version, in the file; a save that fails leaves the file as it was when the
save began; and when all have returned with success, the file holds the registry. -/
theorem overlapping_saves {registry : List Timer} {folder : Folder} (h : Reached registry folder s) (hl : Later s s') :
    (s.saved ≤ s.past.length ∧ s.folder.file = s.content folder.file s.saved) ∧
    (s.saved ≤ s'.saved ∧ s.versions <+: s'.versions) ∧
    (∀ i own, s.stage i = .returned own true → own ≤ s.saved) ∧
    (∀ i s₁ s₂ own, (s.stage i).sparesFile = true → Later s s₁ → Turn i s₁ s₂ → s₂.stage i = .returned own false →
      s₂.folder.file = s.folder.file) ∧
    ((∃ i own, s.stage i = .returned own true) →
      (∀ i, s.stage i = .fresh ∨ ∃ own, s.stage i = .returned own true) →
        s.folder.file = some (.text (Folder.encode s.registry))) := by
  have sound : s.Sound folder.file := (sound_first registry folder).later h
  have forward := sound.forward_later hl
  refine ⟨⟨sound.saved_le, sound.file⟩, ⟨forward.saved, forward.versions⟩, ?returned, ?failed, sound.settled⟩
  case returned =>
    intro i own hi
    have hfits := sound.fits i
    rw [hi] at hfits
    exact hfits.2 rfl
  case failed => exact fun i s₁ s₂ own hi hl₁ ht hf => sound.failed hi hl₁ ht hf

/-- Two requests change an empty registry before the first of them saves, so that its save has both changes. -/
theorem overlapping_saves_two :
    let egg : Timer := { id := "egg", name := "Egg" }
    let tea : Timer := { id := "tea", name := "Tea" }
    ∃ s s' : Saving Bool, Reached [] {} s ∧ Later s s' ∧ s.stage true = .returned 1 true ∧ s.stage false = .waiting 2 ∧
      1 ≤ s.saved ∧ s.saved ≤ s'.saved ∧ s'.folder.file = some (.text (Folder.encode [egg, tea])) := by
  intro egg tea
  have egged : Later ({ registry := [], folder := {} } : Saving Bool) _ :=
    Later.turn .refl true (.change (· ++ [egg]) rfl)
  have changed := egged.turn false (.change (· ++ [tea]) rfl)
  obtain ⟨s, hl, hr, hf, hlock, hs⟩ := later_store (i := true) changed rfl rfl
  have waiting : s.stage false = .waiting 2 := by rw [hs]; rfl
  have first : s.stage true = .returned 1 true := by rw [hs]; rfl
  obtain ⟨s', hl', hr', -, -, hs'⟩ := later_store (.refl (a := s)) waiting hlock
  have writable : (s.folder.save s.registry).1.isOk = true := by rw [hf, hr]; rfl
  have before := overlapping_saves hl hl'
  have after := overlapping_saves (hl.trans hl') .refl
  have returned : ∀ b, ∃ own, s'.stage b = .returned own true := by
    intro b
    rw [hs', writable]
    cases b with
    | false => exact ⟨2, rfl⟩
    | true => exact ⟨1, first⟩
  refine ⟨s, s', hl, hl', first, waiting, before.2.2.1 true 1 first, before.2.1.1, ?_⟩
  rw [after.2.2.2.2 ⟨true, returned true⟩ fun b => .inr (returned b), hr', hr]
  rfl

end Saving

end StepTimer
