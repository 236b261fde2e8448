/-
The registry stays in good order. Timers have distinct names and distinct texts to be called by, a stopwatch
is never locked, and no step or lap of a timer has the name of another one of it. Each of these is seen to in
another place: names when a timer is made or renamed, the lock when it is set, and the names of steps by
giving fresh ones to all that an edit brings in. So the invariant has two parts, the order of the registry and
a source of names that is fresh for it, and every case of a change keeps both.
-/
import StepTimer.Proofs.App.Changes
import StepTimer.Proofs.Timer.Naming
import Mathlib.Logic.Relation

namespace StepTimer

/-- All names of a timer: its own, and those of its steps and laps. -/
def Timer.namesIn (t : Timer) : List String := t.id :: (Step.idsOf t.steps ++ t.logs.map (·.id))

/-- A timer in good order. -/
structure Timer.Good (t : Timer) : Prop where
  trimmed : Text.trim t.name = t.name
  notBlank : Text.trim t.name ≠ ""
  unlocked : t.mode = .stopwatch → t.locked = false
  steps : (Step.idsOf t.steps).Nodup
  laps : (t.logs.map (·.id)).Nodup

theorem Timer.Good.setLocked {t : Timer} (h : t.Good) (locked : Bool) : (t.setLocked locked).Good := by
  refine ⟨h.trimmed, h.notBlank, fun stopwatch => ?_, h.steps, h.laps⟩
  have mode : t.mode = .stopwatch := stopwatch
  simp [Timer.setLocked, mode]

/-- A request is told to let go of a timer: to unlock it, or to delete it. -/
def Command.LetsGo (id : TimerId) (c : Command) : Prop :=
  (∃ name, c = .update id name (some false)) ∨ c = .delete id

namespace App

/-- All names of the timers of a registry. -/
def namesIn (timers : List Timer) : List String := timers.flatMap Timer.namesIn

/-- A registry in good order. -/
structure Good (timers : List Timer) : Prop where
  ids : (timers.map (·.id)).Nodup
  names : (timers.map (·.name)).Nodup
  each : ∀ t ∈ timers, t.Good

/-- The names that a request can be given are of no timer, step or lap. -/
structure Orderly (a : App) : Prop where
  good : Good a.timers
  fresh : a.ids.Fresh (namesIn a.timers)

variable {a b : App} {id : TimerId} {t u : Timer} {timers timers' : List Timer} {ids : IdSource} {now : Instant}
  {c : Command}

/-! ## Replacing a timer -/

theorem modifyFirst_split (distinct : (timers.map (·.id)).Nodup) (found : timers.find? (fun x => x.id = id) = some t)
    (u : Timer) : ∃ before after, timers = before ++ t :: after ∧
      modifyFirst id (fun _ => u) timers = before ++ u :: after ∧
      timers.filter (fun x => x.id ≠ id) = before ++ after := by
  induction timers with
  | nil => cases found
  | cons x rest ih =>
    obtain ⟨notIn, distinct⟩ := List.nodup_cons.1 distinct
    unfold modifyFirst
    by_cases hx : x.id = id
    · rw [List.find?_cons_of_pos (by simpa using hx)] at found
      cases found
      have kept : rest.filter (fun x => x.id ≠ id) = rest := List.filter_eq_self.2 fun y hy => by
        simp only [ne_eq, decide_not, Bool.not_eq_true', decide_eq_false_iff_not]
        rintro rfl
        exact notIn (List.mem_map.2 ⟨y, hy, hx.symm⟩)
      refine ⟨[], rest, rfl, if_pos hx, ?_⟩
      rw [List.filter_cons_of_neg (by simpa using hx), kept, List.nil_append]
    · rw [List.find?_cons_of_neg (by simpa using hx)] at found
      obtain ⟨before, after, hrest, hmod, hfilter⟩ := ih distinct found
      refine ⟨x :: before, after, by rw [hrest]; rfl, by rw [if_neg hx, hmod]; rfl, ?_⟩
      rw [List.filter_cons_of_pos (by simpa using hx), hfilter]; rfl

theorem find?_modifyFirst {id' : TimerId} (hu : u.id = id') :
    (modifyFirst id' (fun _ => u) timers).find? (fun x => x.id = id) =
      if id = id' then (timers.find? fun x => x.id = id).map fun _ => u else timers.find? fun x => x.id = id := by
  induction timers with
  | nil => simp [modifyFirst]
  | cons x rest ih =>
    unfold modifyFirst
    by_cases hx : x.id = id'
    · by_cases hid : id = id'
      · simp [hx, hu, hid]
      · simp [hx, hu, hid, Ne.symm hid]
    · by_cases hxid : x.id = id
      · have hid : id ≠ id' := fun h => hx (hxid.trans h)
        simp [hxid, hid]
      · simp only [if_neg hx, List.find?_cons, hxid, decide_false, ih]

/-- A timer that is not there does not come when another one is replaced. -/
theorem absent_replace {id' : TimerId} (hu : u.id = id') (absent : timers.find? (fun x => x.id = id) = none) :
    (modifyFirst id' (fun _ => u) timers).find? (fun x => x.id = id) = none := by
  rw [find?_modifyFirst hu, absent]
  split <;> rfl

/-- A timer may be replaced by one in good order with the same name and a text that no other timer has. -/
theorem Good.replace (h : Good timers) (found : timers.find? (fun x => x.id = t.id) = some t) (hid : u.id = t.id)
    (hu : u.Good) (free : u.name ∉ (timers.filter fun x => x.id ≠ t.id).map (·.name)) :
    Good (modifyFirst t.id (fun _ => u) timers) := by
  obtain ⟨before, after, hsplit, hmod, hfilter⟩ := modifyFirst_split h.ids found u
  have ids := h.ids
  have names := h.names
  have each := h.each
  rw [hsplit] at ids names each
  rw [hfilter, List.map_append] at free
  simp only [List.map_append, List.map_cons, List.nodup_middle, List.nodup_cons] at ids names
  rw [hmod]
  constructor
  case ids => simp only [List.map_append, List.map_cons, List.nodup_middle, List.nodup_cons]; rw [hid]; exact ids
  case names =>
    simp only [List.map_append, List.map_cons, List.nodup_middle, List.nodup_cons]
    exact ⟨free, names.2⟩
  case each =>
    intro x hx
    rcases List.mem_append.1 hx with hx | hx
    · exact each x (List.mem_append_left _ hx)
    · rcases List.mem_cons.1 hx with rfl | hx
      · exact hu
      · exact each x (List.mem_append_right _ (List.mem_cons_of_mem _ hx))

/-- No other timer has the text of a timer. -/
theorem Good.name_free (h : Good timers) (ht : t ∈ timers) :
    t.name ∉ (timers.filter fun x => x.id ≠ t.id).map (·.name) := by
  intro hmem
  obtain ⟨x, hx, hname⟩ := List.mem_map.1 hmem
  obtain ⟨hx, hne⟩ := List.mem_filter.1 hx
  have := List.inj_on_of_nodup_map h.names hx ht hname
  simp [this] at hne

theorem Good.trimmed_names (h : Good timers) {others : List Timer} (sub : ∀ t ∈ others, t ∈ timers) :
    (others.map (·.name)).map Text.trim = others.map (·.name) := by
  rw [List.map_map]
  exact List.map_congr_left fun t ht => (h.each t (sub t ht)).trimmed

theorem namesIn_subset_of_mem (h : t ∈ timers) : ∀ x ∈ t.namesIn, x ∈ namesIn timers :=
  fun _ hx => List.mem_flatMap.2 ⟨t, h, hx⟩

/-- Replacing a timer brings in no names but those of the new one. -/
theorem namesIn_replace (id : TimerId) (u : Timer) (timers : List Timer) :
    ∀ x ∈ namesIn (modifyFirst id (fun _ => u) timers), x ∈ namesIn timers ∨ x ∈ u.namesIn := by
  induction timers with
  | nil => exact fun x hx => .inl hx
  | cons t rest ih =>
    intro x hx
    have rest := ih x
    unfold modifyFirst at hx
    unfold namesIn at hx rest ⊢
    split at hx <;> simp only [List.flatMap_cons, List.mem_append] at hx ⊢ <;> tauto

/-! ## What a change keeps -/

/-- The source stays fresh for all names of the registry, and for all other ones that it was fresh for. -/
theorem Change.fresh (change : Change a c timers' ids) (used : List String)
    (fresh : a.ids.Fresh (namesIn a.timers ++ used)) : ids.Fresh (namesIn timers' ++ used) := by
  have own {t : Timer} (found : a.timer? t.id = some t) : ∀ x ∈ t.namesIn, x ∈ namesIn a.timers :=
    namesIn_subset_of_mem (List.mem_of_find?_eq_some found)
  have steps {t : Timer} (found : a.timer? t.id = some t) :
      a.ids.Fresh (Step.idsOf t.steps ++ (namesIn a.timers ++ used)) := fresh.mono fun x hx => by
    have old := own found x
    simp only [Timer.namesIn, List.mem_append, List.mem_cons] at hx old ⊢; tauto
  cases change with
  | kept => exact fresh
  | spent c t found =>
    exact (StepTree.fresh_ofSteps (steps found)).mono fun x hx => List.mem_append_right _ hx
  | @created requested name mode free =>
    refine fresh.next.mono fun x hx => ?_
    simp only [namesIn, Timer.namesIn, Step.idsOf, List.flatMap_append, List.flatMap_cons, List.flatMap_nil,
      List.map_nil, List.append_nil, List.mem_append, List.mem_cons, List.not_mem_nil, or_false] at hx ⊢
    tauto
  | @updated requested locked t u found named =>
    have same : (locked.elim u u.setLocked).namesIn = t.namesIn := by
      have names : u.namesIn = t.namesIn := by
        unfold renamed? at named
        rcases requested with _ | requested
        · cases named; rfl
        · obtain ⟨name, -, rfl⟩ := Option.map_eq_some_iff.1 named; rfl
      rw [← names]
      rcases locked with _ | l <;> rfl
    refine fresh.mono fun x hx => ?_
    have new := namesIn_replace t.id (locked.elim u u.setLocked) a.timers x
    have old := own found x
    rw [same] at new
    simp only [List.mem_append] at hx ⊢; tauto
  | removed id =>
    refine fresh.mono fun x hx => (List.mem_append.1 hx).elim (fun hx => ?_) (List.mem_append_right _)
    obtain ⟨t, ht, hx⟩ := List.mem_flatMap.1 hx
    exact List.mem_append_left _ (namesIn_subset_of_mem (List.mem_filter.1 ht).1 x hx)
  | @edited c t tree ids found unlocked whole =>
    obtain ⟨hw, fresh'⟩ := whole (namesIn a.timers ++ used) (steps found)
    refine fresh'.mono fun x hx => ?_
    have new := namesIn_replace t.id { t with steps := tree.toSteps } a.timers x
    have old := own found x
    have edited := hw.idsOf_toSteps_subset (a := x)
    simp only [Timer.namesIn, List.mem_append, List.mem_cons] at hx new old ⊢; tauto
  | @lapped c t lap found named =>
    refine fresh.next.mono fun x hx => ?_
    have new := namesIn_replace t.id { t with logs := t.logs ++ [lap] } a.timers x
    have old := own found x
    simp only [Timer.namesIn, List.mem_append, List.mem_cons, List.map_append, List.map_cons, List.map_nil,
      List.not_mem_nil, or_false, named] at hx new old ⊢
    tauto
  | @relogged c t logs found sub =>
    refine fresh.mono fun x hx => ?_
    have new := namesIn_replace t.id { t with logs := logs } a.timers x
    have old := own found x
    have kept := sub.subset (a := x)
    simp only [Timer.namesIn, List.mem_append, List.mem_cons] at hx new old ⊢; tauto

/-- A timer may be replaced by one in good order that keeps its name and its text. -/
theorem Good.edited (h : Good a.timers) (found : a.timer? t.id = some t) (hid : u.id = t.id) (hname : u.name = t.name)
    (hu : u.Good) : Good (modifyFirst t.id (fun _ => u) a.timers) := by
  refine h.replace found hid hu ?_
  rw [hname]; exact h.name_free (List.mem_of_find?_eq_some found)

/-- A timer that is renamed has a text that is in order and that no other timer has. -/
theorem Good.renamed (h : Good a.timers) {requested : Option String} (ht : t ∈ a.timers)
    (named : a.renamed? t requested = some u) :
    u.Good ∧ u.name ∉ (a.timers.filter fun x => x.id ≠ t.id).map (·.name) := by
  have good := h.each t ht
  unfold renamed? at named
  rcases requested with _ | requested
  · cases named
    exact ⟨good, h.name_free ht⟩
  · obtain ⟨name, hname, rfl⟩ := Option.map_eq_some_iff.1 named
    obtain ⟨trimmed, hne, free⟩ := TimerName.unique?_spec hname
    rw [h.trimmed_names fun t ht => (List.mem_filter.1 ht).1] at free
    exact ⟨⟨trimmed, by rw [trimmed]; exact hne, good.unlocked, good.steps, good.laps⟩, free⟩

theorem Orderly.good_change (h : a.Orderly) (change : Change a c timers' ids) : Good timers' := by
  cases change with
  | kept => exact h.good
  | spent => exact h.good
  | @created requested name mode free =>
    obtain ⟨trimmed, hne, free⟩ := TimerName.unique?_spec free
    rw [h.good.trimmed_names fun t ht => ht] at free
    have new : a.ids.next.1 ∉ a.timers.map (·.id) := fun hmem => by
      obtain ⟨t, ht, hid⟩ := List.mem_map.1 hmem
      exact h.fresh.next_not_mem (hid ▸ namesIn_subset_of_mem ht t.id (List.mem_cons_self ..))
    refine ⟨?_, ?_, fun t ht => ?_⟩
    · rw [List.map_append]; exact List.concat_eq_append ▸ h.good.ids.concat new
    · rw [List.map_append]; exact List.concat_eq_append ▸ h.good.names.concat free
    · rcases List.mem_append.1 ht with ht | ht
      · exact h.good.each t ht
      · rw [List.mem_singleton.1 ht]
        exact ⟨trimmed, by rw [trimmed]; exact hne, fun _ => rfl, List.nodup_nil, List.nodup_nil⟩
  | @updated requested locked t u found named =>
    obtain ⟨hu, free⟩ := h.good.renamed (List.mem_of_find?_eq_some found) named
    rcases locked with _ | l
    · exact h.good.replace found (renamed?_eq named).1 hu free
    · exact h.good.replace (u := u.setLocked l) found (renamed?_eq named).1 (hu.setLocked l) free
  | removed id =>
    have sub : (a.timers.filter fun t => t.id ≠ id).Sublist a.timers := List.filter_sublist
    exact ⟨h.good.ids.sublist (sub.map _), h.good.names.sublist (sub.map _), fun t ht => h.good.each t (sub.subset ht)⟩
  | @edited c t tree ids found unlocked whole =>
    have ht := List.mem_of_find?_eq_some found
    have good := h.good.each t ht
    obtain ⟨hw, -⟩ := whole (namesIn a.timers) (h.fresh.mono fun x hx => by
      rcases List.mem_append.1 hx with hx | hx
      · exact namesIn_subset_of_mem ht x (List.mem_cons_of_mem _ (List.mem_append_left _ hx))
      · exact hx)
    exact h.good.edited (u := { t with steps := tree.toSteps }) found rfl rfl
      ⟨good.trimmed, good.notBlank, good.unlocked, hw.nodup_toSteps, good.laps⟩
  | @lapped c t lap found named =>
    have ht := List.mem_of_find?_eq_some found
    have good := h.good.each t ht
    have new : lap.id ∉ t.logs.map (·.id) := fun hmem => by
      rw [named] at hmem
      exact h.fresh.next_not_mem (namesIn_subset_of_mem ht _ (List.mem_cons_of_mem _ (List.mem_append_right _ hmem)))
    refine h.good.edited (u := { t with logs := t.logs ++ [lap] }) found rfl rfl
      ⟨good.trimmed, good.notBlank, good.unlocked, good.steps, ?_⟩
    rw [List.map_append]; exact List.concat_eq_append ▸ good.laps.concat new
  | @relogged c t logs found sub =>
    have good := h.good.each t (List.mem_of_find?_eq_some found)
    exact h.good.edited (u := { t with logs := logs }) found rfl rfl
      ⟨good.trimmed, good.notBlank, good.unlocked, good.steps, good.laps.sublist sub⟩

theorem Orderly.change (h : a.Orderly) (change : Change a c timers' ids) : Good timers' ∧ ids.Fresh (namesIn timers') := by
  have fresh := change.fresh [] (by rw [List.append_nil]; exact h.fresh)
  exact ⟨h.good_change change, by rwa [List.append_nil] at fresh⟩

/-! ## Locked timers -/

/-- What replaces a timer is found in its place; every other timer is found as before. -/
theorem locked_replace {t' : Timer} (found' : a.timer? t'.id = some t') (hu : u.id = t'.id)
    (found : a.timer? id = some t) (locked : t.locked = true)
    (same : t' = t → u.locked = true ∧ u.steps = t.steps) :
    ∃ v, (modifyFirst t'.id (fun _ => u) a.timers).find? (fun x => x.id = id) = some v ∧
      v.locked = true ∧ v.steps = t.steps := by
  rw [find?_modifyFirst hu]
  by_cases hid : id = t'.id
  · subst hid
    rw [found'] at found
    cases found
    exact ⟨u, by rw [if_pos rfl, ← timer?, found', Option.map_some], same rfl⟩
  · exact ⟨t, by rw [if_neg hid]; exact found, locked, rfl⟩

theorem Change.locked (change : Change a c timers' ids) (found : a.timer? id = some t) (good : t.Good)
    (locked : t.locked = true) (held : ¬ c.LetsGo id) :
    ∃ u, timers'.find? (fun x => x.id = id) = some u ∧ u.locked = true ∧ u.steps = t.steps := by
  cases change with
  | kept => exact ⟨t, found, locked, rfl⟩
  | spent => exact ⟨t, found, locked, rfl⟩
  | created => exact ⟨t, by rw [List.find?_append, ← timer?, found]; rfl, locked, rfl⟩
  | @updated requested lock t' u found' named =>
    have hu : (lock.elim u u.setLocked).id = t'.id := by
      rw [← (renamed?_eq named).1]; rcases lock with _ | l <;> rfl
    refine locked_replace found' hu found locked ?_
    rintro rfl
    have kept : u.locked = t'.locked ∧ u.mode = t'.mode ∧ u.steps = t'.steps := by
      unfold renamed? at named
      rcases requested with _ | requested
      · cases named; exact ⟨rfl, rfl, rfl⟩
      · obtain ⟨name, -, rfl⟩ := Option.map_eq_some_iff.1 named; exact ⟨rfl, rfl, rfl⟩
    rcases lock with _ | _ | _
    · exact ⟨kept.1.trans locked, kept.2.2⟩
    · exact absurd (.inl ⟨requested, by rw [id_of_timer? found]⟩) held
    · -- only a stopwatch is not locked when it is told to be
      have mode : u.mode ≠ .stopwatch := fun h => by
        rw [kept.2.1] at h
        exact absurd (good.unlocked h) (by rw [locked]; exact Bool.noConfusion)
      exact ⟨by simp [Timer.setLocked, mode], kept.2.2⟩
  | removed id' =>
    have hne : id ≠ id' := fun h => held (.inr (by rw [h]))
    refine ⟨t, ?_, locked, rfl⟩
    rw [List.find?_filter, ← found, timer?]
    congr 1
    funext x
    by_cases hx : x.id = id
    · simp [hx, hne]
    · simp [hx]
  | @edited c t' tree ids found' unlocked whole =>
    refine locked_replace found' rfl found locked ?_
    rintro rfl
    rw [locked] at unlocked; cases unlocked
  | @lapped c t' lap found' named =>
    exact locked_replace (u := { t' with logs := t'.logs ++ [lap] }) found' rfl found locked (by
      rintro rfl; exact ⟨locked, rfl⟩)
  | @relogged c t' logs found' sub =>
    exact locked_replace (u := { t' with logs := logs }) found' rfl found locked (by
      rintro rfl; exact ⟨locked, rfl⟩)

/-- A request that is refused leaves the timers as they are. -/
theorem timers_of_refused {e : AppError} (refused : (a.perform now c).1 = .error e) (early : e.isStorage = false) :
    (a.perform now c).2.timers = a.timers := by
  cases comes_perform a now c with
  | refused e' ids early h =>
    have ha : a.perform now c = (.error e', { a with ids := ids }) := h a.store
    rw [ha]
  | answered b x same h =>
    have ha : a.perform now c = (.ok x, b.keptIn a.store) := h a.store
    rw [ha]; exact same
  | stored b x revised h =>
    have ha : a.perform now c = (b.keptIn a.store).stored x := h a.store
    rw [ha] at refused
    rw [stored_error refused] at early; cases early

/-- A request lets go of a timer: it is told to, and is not refused. -/
def Releases (id : TimerId) (a : App) (now : Instant) (c : Command) : Prop :=
  c.LetsGo id ∧ ∀ e, (a.perform now c).1 = .error e → e.isStorage = true

theorem locked_perform (found : a.timer? id = some t) (good : t.Good) (locked : t.locked = true)
    (held : ¬ Releases id a now c) :
    ∃ u, (a.perform now c).2.timer? id = some u ∧ u.locked = true ∧ u.steps = t.steps := by
  by_cases hc : c.LetsGo id
  · obtain ⟨e, refused, early⟩ : ∃ e, (a.perform now c).1 = .error e ∧ e.isStorage = false := by
      by_contra none
      refine held ⟨hc, fun e he => ?_⟩
      by_contra early
      exact none ⟨e, he, by simpa using early⟩
    exact ⟨t, by rw [timer?, timers_of_refused refused early]; exact found, locked, rfl⟩
  · exact (change_perform a now c).locked found good locked hc

/-! ## Histories -/

/-- What happens next: a request that may come is performed, or something goes on beside the registry, in the
runs or in the folder. -/
inductive Turn (may : App → Instant → Command → Prop) : App → App → Prop
  | perform (a : App) (now : Instant) (c : Command) (h : may a now c) : Turn may a (a.perform now c).2
  | beside {a b : App} (timers : b.timers = a.timers) (ids : b.ids = a.ids) : Turn may a b

/-- From one application to another one by any number of turns. -/
abbrev Later (may : App → Instant → Command → Prop) : App → App → Prop := Relation.ReflTransGen (Turn may)

variable {may : App → Instant → Command → Prop}

theorem Orderly.turn (h : a.Orderly) (turn : Turn may a b) : b.Orderly := by
  cases turn with
  | perform now c _ =>
    obtain ⟨good, fresh⟩ := h.change (change_perform a now c)
    exact ⟨good, fresh⟩
  | beside timers ids => exact ⟨by rw [timers]; exact h.good, by rw [ids, timers]; exact h.fresh⟩

theorem Orderly.later (h : a.Orderly) (later : Later may a b) : b.Orderly := by
  induction later with
  | refl => exact h
  | tail _ turn ih => exact ih.turn turn

theorem locked_later (h : a.Orderly) (found : a.timer? id = some t) (locked : t.locked = true)
    (later : Later (fun a now c => ¬ Releases id a now c) a b) :
    ∃ u, b.timer? id = some u ∧ u.locked = true ∧ u.steps = t.steps := by
  induction later with
  | refl => exact ⟨t, found, locked, rfl⟩
  | @tail b c before turn ih =>
    obtain ⟨u, hu, hlocked, hsteps⟩ := ih
    rw [← hsteps]
    cases turn with
    | perform now c held =>
      exact locked_perform hu ((h.later before).good.each u (List.mem_of_find?_eq_some hu)) hlocked held
    | beside timers ids => exact ⟨u, by rw [timer?, timers]; exact hu, hlocked, rfl⟩

/-- From a registry in good order, and a source that is fresh for it, every history of requests leads only to
registries in good order. And wherever in such a history a timer is locked, it is there ever after, locked and
with the same steps, until a request to unlock or to delete it is carried out. -/
theorem registry_stays_good (good : Good a.timers) (fresh : a.ids.Fresh (namesIn a.timers))
    (later : Later (fun _ _ _ => True) a b) :
    Good b.timers ∧ ∀ id t c, b.timer? id = some t → t.locked = true →
      Later (fun a now c => ¬ Releases id a now c) b c →
        ∃ u, c.timer? id = some u ∧ u.locked = true ∧ u.steps = t.steps := by
  have h : b.Orderly := Orderly.later ⟨good, fresh⟩ later
  exact ⟨h.good, fun id t c found locked rest => locked_later h found locked rest⟩

/-- A kitchen with a soup and a locked bread. -/
def kitchen : App where
  ids := StepTree.dollars 5
  timers := [{ id := "soup", name := "Soup", steps := [.block "boil" (.loop (.times 2)) [.leaf "stir" .unknown]] },
    { id := "bread", name := "Bread", steps := [.leaf "bake" .unknown], locked := true }]
  runner := { equipment := ⟨fun _ _ => .endless, .off, "bell", fun t => ⟨t.millis⟩⟩ }

/-- Into the soup come two steps of one name, which another step has already, and it is given the name of the
bread; then a step of the bread is to be deleted. -/
theorem registry_stays_good_kitchen :
    let taste := StepKind.block (.loop (.times 1)) [.leaf "stir" .unknown, .leaf "stir" .unknown]
    let a := (kitchen.perform ⟨0⟩ (.insertStep "soup" .rootEnd taste)).2
    let b := (a.perform ⟨1⟩ (.update "soup" (some " Bread ") none)).2
    let c := (b.perform ⟨2⟩ (.deleteStep "bread" "bake")).2
    b.timers.map (·.name) = ["Bread 2", "Bread"] ∧
      b.timers.map (fun t => Step.idsOf t.steps) = [["boil", "stir", "$$$$$$", "$$$$$$$", "$$$$$$$$"], ["bake"]] ∧
      Good b.timers ∧ ∃ u, c.timer? "bread" = some u ∧ u.locked = true ∧ u.steps = [.leaf "bake" .unknown] := by
  intro taste a b c
  have good : Good kitchen.timers := by
    refine ⟨by decide, by decide, fun t ht => ?_⟩
    simp only [kitchen, List.mem_cons, List.not_mem_nil, or_false] at ht
    rcases ht with rfl | rfl <;> constructor <;> decide +kernel
  have fresh : kitchen.ids.Fresh (namesIn kitchen.timers) := StepTree.dollars_fresh (by decide +kernel)
  have later : Later (fun _ _ _ => True) kitchen b :=
    .tail (.single (.perform _ _ _ trivial)) (.perform _ _ _ trivial)
  obtain ⟨hb, locked⟩ := registry_stays_good good fresh later
  refine ⟨by decide +kernel, by decide +kernel, hb, locked "bread" _ c rfl rfl (.single (.perform _ _ _ ?_))⟩
  rintro ⟨⟨_, h⟩ | h, -⟩ <;> cases h

end App

end StepTimer
