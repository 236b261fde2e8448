/-
Loading what was saved. The application begins with an empty registry and changes it by requests; whatever
registry comes of that, once it is saved it is loaded again, as long as no step stands deeper than the reader
goes. A single step that does is enough for the file to be refused, and then for all timers to be put aside
with it.
-/
import StepTimer.Proofs.Codec.Text
import StepTimer.Proofs.Store.Saves
import StepTimer.Proofs.Tree.Kept

namespace StepTimer

/-! ## Registries that have grown -/

/-- Settings whose amounts are finite numbers that the reader of numbers reads back. -/
def Settings.AreKept (g : Settings) : Prop := ∀ x ∈ g.amounts, x.isFinite = true ∧ (Number.double x).ReadsBack

namespace App

/-- What the application comes to from an empty registry, by requests that bring in only fine settings. Between
the requests the runs go on, and the folder may change; that leaves the registry. -/
inductive Grown (fine : Settings → Prop) : App → Prop
  | empty {a : App} (h : a.timers = []) : Grown fine a
  | perform {a : App} (before : Grown fine a) (now : Instant) (c : Command) (h : ∀ g ∈ c.brought, fine g) :
    Grown fine (a.perform now c).2
  | beside {a b : App} (before : Grown fine a) (same : b.timers = a.timers) : Grown fine b

variable {fine : Settings → Prop} {a : App} {timers timers' : List Timer} {brought : List Settings}

/-- What holds of all settings in the registry. -/
def Holds (fine : Settings → Prop) (timers : List Timer) : Prop := ∀ t ∈ timers, ∀ g ∈ Step.settingsOf t.steps, fine g

theorem mem_modifyFirst {id : TimerId} {f : Timer → Timer} {t : Timer} (h : t ∈ modifyFirst id f timers) :
    t ∈ timers ∨ ∃ u ∈ timers, t = f u := by
  induction timers with
  | nil => cases h
  | cons u rest ih =>
    unfold modifyFirst at h
    split at h
    · rcases List.mem_cons.1 h with rfl | h
      · exact .inr ⟨u, List.mem_cons_self .., rfl⟩
      · exact .inl (List.mem_cons_of_mem _ h)
    · rcases List.mem_cons.1 h with rfl | h
      · exact .inl (List.mem_cons_self ..)
      · rcases ih h with h | ⟨v, hv, rfl⟩
        · exact .inl (List.mem_cons_of_mem _ h)
        · exact .inr ⟨v, List.mem_cons_of_mem _ hv, rfl⟩

theorem holds_editedSteps {steps steps' : List Step} (h : ∀ g ∈ Step.settingsOf steps, fine g)
    (hb : ∀ g ∈ brought, fine g) (edited : EditedSteps brought steps steps') :
    ∀ g ∈ Step.settingsOf steps', fine g := by
  obtain ⟨made, used, e, sub, rfl⟩ := edited
  exact ((StepTree.holds_ofSteps made h).apply e fun g hg => hb g (sub hg)).toSteps

/-- A revision brings no other settings into the registry than the request. -/
theorem Holds.revision (h : Holds fine timers) (hb : ∀ g ∈ brought, fine g)
    (revised : Revision brought timers timers') : Holds fine timers' := by
  cases revised with
  | same => exact h
  | added t empty =>
    intro u hu
    rcases List.mem_append.1 hu with hu | hu
    · exact h u hu
    · rw [List.mem_singleton.1 hu, empty]
      intro g hg
      cases hg
  | removed id => exact fun t ht => h t (List.mem_filter.1 ht).1
  | replaced t u found name steps =>
    have ht : t ∈ timers := List.mem_of_find?_eq_some found
    have hu : ∀ g ∈ Step.settingsOf u.steps, fine g := by
      rcases steps with same | edited
      · rw [same]; exact h t ht
      · exact holds_editedSteps (h t ht) hb edited
    intro v hv
    rcases mem_modifyFirst hv with hv | ⟨_, -, rfl⟩
    · exact h v hv
    · exact hu

/-- All settings in a registry that has grown are fine. -/
theorem Grown.holds (grown : Grown fine a) : Holds fine a.timers := by
  induction grown with
  | empty h => rw [h]; intro t ht; cases ht
  | @perform a before now c hc ih =>
    cases comes_perform a now c with
    | refused e ids early h =>
      have ha : a.perform now c = (.error e, { a with ids := ids }) := h a.store
      rw [ha]; exact ih
    | answered b x same h =>
      have ha : a.perform now c = (.ok x, b.keptIn a.store) := h a.store
      rw [ha]
      show Holds fine b.timers
      rw [same]; exact ih
    | stored b x revised h =>
      have ha : a.perform now c = (b.keptIn a.store).stored x := h a.store
      rw [ha, stored_snd]
      exact ih.revision hc revised
  | beside before same ih => rw [same]; exact ih

theorem Holds.amounts (h : Holds Settings.AreKept timers) :
    ∀ t ∈ timers, ∀ x ∈ Step.amountsOf t.steps, x.isFinite = true ∧ (Number.double x).ReadsBack := by
  intro t ht x hx
  obtain ⟨g, hg, hx⟩ := List.mem_flatMap.1 hx
  exact h t ht g hg x hx

end App

/-! ## Saving and loading -/

theorem Folder.save_ok {f f' : Folder} {timers : List Timer} (h : f.save timers = (.ok (), f')) :
    f'.file = some (.text (encode timers)) := by
  unfold save at h
  split at h
  · cases h
  next written hw =>
    cases writeTemp_ok hw
    split at h
    · cases h
    next done hc =>
      cases h
      cases commit_ok hc
      rfl

theorem Folder.load_text {f : Folder} {text : String} (h : f.file = some (.text text)) :
    f.load = (decode? text).elim (.error .format) .ok := by
  unfold load
  simp only [h]
  cases decode? text <;> rfl

/-- A registry that has grown by requests and was saved. If its steps take up at most the levels that the reader
goes through, the same timers are loaded and the file stays in its place; if one of its timers has a step on a
deeper level, loading is refused, and what is loaded instead is empty and the file is put aside. -/
theorem saved_timers_load {a : App} (grown : a.Grown Settings.AreKept) {f f' : Folder}
    (saved : f.save a.timers = (.ok (), f')) :
    ((∀ t ∈ a.timers, Step.levelsOf t.steps ≤ levelMax) →
        f'.load = .ok a.timers ∧ f'.loadOrQuarantine = (.ok a.timers, f')) ∧
      ((∃ t ∈ a.timers, levelMax < Step.levelsOf t.steps) →
        f'.load = .error .format ∧ (f'.bad ≠ some .directory →
          f'.loadOrQuarantine = (.ok [], { f' with file := none, bad := f'.file }))) := by
  have text := Folder.load_text (Folder.save_ok saved)
  rw [Folder.decode?_encode a.timers grown.holds.amounts] at text
  constructor
  · intro shallow
    have load : f'.load = .ok a.timers := by rw [text, if_pos shallow, Option.elim_some]
    exact ⟨load, by rw [Folder.loadOrQuarantine, load]⟩
  · rintro ⟨t, ht, deep⟩
    have notShallow : ¬ ∀ t ∈ a.timers, Step.levelsOf t.steps ≤ levelMax := fun h => absurd (h t ht) (by omega)
    have load : f'.load = .error .format := by rw [text, if_neg notShallow, Option.elim_none]
    refine ⟨load, fun free => ?_⟩
    rw [Folder.loadOrQuarantine, load]
    simp only [Folder.moveAside, if_neg free]

/-! ### Towers of loops -/

/-- Loops in each other around a wait of two and a half minutes. -/
def Step.tower : Nat → Step
  | 0 => .leaf "" (.wait ⟨0x4004000000000000⟩ .minutes)
  | n + 1 => .block "" (.loop (.times 1)) [tower n]

theorem Step.mem_settingsIn_tower {n : Nat} {g : Settings} (h : g ∈ (tower n).settingsIn) :
    g = .action (.wait ⟨0x4004000000000000⟩ .minutes) ∨ g = .block (.loop (.times 1)) := by
  induction n with
  | zero => exact .inl (List.mem_singleton.1 h)
  | succ n ih =>
    rcases List.mem_cons.1 h with h | h
    · exact .inr h
    · obtain ⟨s, hs, hg⟩ := mem_settingsOf.1 h
      rw [List.mem_singleton.1 hs] at hg
      exact ih hg

/-- An application in which a timer was made and so many loops were put into it, one in the other. -/
def App.withTower (loops : Nat) : App :=
  let equipment : Equipment := ⟨fun _ _ => .endless, .off, "bell", fun t => ⟨t.millis⟩⟩
  let first : App := { ids := StepTree.dollars 0, timers := [], runner := { equipment } }
  let made := (first.perform ⟨0⟩ (.create "Tower" .sequence)).2
  (made.perform ⟨1⟩ (.insertStep "$" .rootEnd (Step.tower loops).kind)).2

theorem App.grown_withTower (loops : Nat) : (withTower loops).Grown Settings.AreKept := by
  refine .perform (.perform (.empty rfl) _ _ fun g hg => by cases hg) _ _ fun g hg x hx => ?_
  have readsBack : (Number.double ⟨0x4004000000000000⟩).ReadsBack :=
    ⟨⟨false, [2], [5], none⟩, by decide +kernel, by decide +kernel⟩
  have same : (Command.insertStep "$" .rootEnd (Step.tower loops).kind).brought = (Step.tower loops).settingsIn := by
    cases loops <;> rfl
  rw [same] at hg
  rcases Step.mem_settingsIn_tower hg with rfl | rfl
  · rw [List.mem_singleton.1 hx]; exact ⟨by decide, readsBack⟩
  · cases hx

/-- A timer with two loops is saved and loaded; one with sixty-two loops around a wait is saved and not loaded. -/
theorem saved_timers_load_tower :
    (∃ f, ({} : Folder).save (App.withTower 2).timers = (.ok (), f) ∧ f.load = .ok (App.withTower 2).timers) ∧
      ∃ f, ({} : Folder).save (App.withTower 62).timers = (.ok (), f) ∧ f.load = .error .format ∧
        f.loadOrQuarantine = (.ok [], { f with file := none, bad := f.file }) := by
  have shallow : ∀ t ∈ (App.withTower 2).timers, Step.levelsOf t.steps ≤ levelMax := by decide +kernel
  have deep : ∃ t ∈ (App.withTower 62).timers, levelMax < Step.levelsOf t.steps := by decide +kernel
  have low : ({} : Folder).save (App.withTower 2).timers = (.ok (), _) := rfl
  have high : ({} : Folder).save (App.withTower 62).timers = (.ok (), _) := rfl
  have refused := (saved_timers_load (App.grown_withTower 62) high).2 deep
  exact ⟨⟨_, low, ((saved_timers_load (App.grown_withTower 2) low).1 shallow).1⟩, _, high, refused.1,
    refused.2 fun h => by cases h⟩

end StepTimer
