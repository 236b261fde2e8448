/-
The account of a run that only waits. Its notes fall into sections, one for each step of the unrolled
list in order: what is seen when the step becomes active and, for a wait, the reports of what is left
of it. Every report and the end of a wait agree with the time for which the run has been awake since
the wait became active, however often and whenever the run was paused.
-/
import StepTimer.Proofs.Engine.Countdowns
import StepTimer.Proofs.Solo.Unrolled
import Mathlib.Algebra.GroupWithZero.Nat

namespace StepTimer

namespace Action

/-- The milliseconds that an action waits for, if it is a wait. -/
def waitMs? : Action → Option Nat
  | wait amount unit => some (unit.durationMillis amount).toNat
  | _ => none

/-- Whether an action only waits, and not for longer than a countdown can count. -/
def Idles : Action → Prop
  | wait amount unit => ((unit.durationMillis amount).toNat : Int) ≤ countMax
  | unknown => True
  | _ => False

end Action

namespace Step

/-- The milliseconds that a step waits for, if it is a wait. -/
def waitMs? : Step → Option Nat
  | leaf _ action => action.waitMs?
  | block _ _ _ => none

/-- The milliseconds that a step waits for; none if it is not a wait. -/
def waitMs (s : Step) : Nat := s.waitMs?.getD 0

/-- The milliseconds of all waits of a list. -/
def waitTotal (steps : List Step) : Nat := (steps.map waitMs).sum

theorem waitTotal_append (steps more : List Step) : waitTotal (steps ++ more) = waitTotal steps + waitTotal more := by
  simp [waitTotal]

end Step

/-! ## Sections of an account -/

namespace Note

/-- A note of a sight at a moment. -/
structure Is (n : Note) (awake : Nat) (sight : Sight) : Prop where
  awake_eq : n.awake = awake
  sight_eq : n.sight = sight

/-- A note of what is left of a wait that became active at a moment: with the time for which the run
has been awake since then, it comes to the total. -/
def Counts (n : Note) (id : StepId) (total since : Nat) : Prop :=
  ∃ ms : UInt64, n.sight = .event (.progress id (some ms)) ∧ since ≤ n.awake ∧ n.awake - since + ms.toNat = total

/-- What is seen when a step becomes active. -/
def Enter (s : Step) (since : Nat) (notes : List Note) : Prop :=
  ∃ a b, notes = [a, b] ∧ a.Is since (.active s) ∧ b.Is since (.event (.progress s.id none))

/-- What is seen of a wait up to a moment: it becomes active, at that moment its total is reported, and
from then on what is left of it. -/
def Count (s : Step) (total since : Nat) (notes : List Note) : Prop :=
  ∃ opening first reports, notes = opening ++ first :: reports ∧ Enter s since opening ∧ first.awake = since ∧
    ∀ n ∈ first :: reports, n.Counts s.id total since

/-- All that is seen of a step that became active at one moment and was over at another. -/
inductive Section (s : Step) (since : Nat) : List Note → Nat → Prop
  | brief {notes : List Note} (h : s.waitMs? = none) (hnotes : Enter s since notes) : Section s since notes since
  | wait {notes : List Note} {last : Note} {total : Nat} (h : s.waitMs? = some total) (hnotes : Count s total since notes)
      (hlast : last.Is (since + total) (.event (.progress s.id none))) :
      Section s since (notes ++ [last]) (since + total)

/-- What is seen of some steps, one after the other, up to a moment. -/
inductive Sections : List Step → List Note → Nat → Prop
  | nil : Sections [] [] 0
  | snoc {steps : List Step} {s : Step} {notes more : List Note} {since now : Nat} (h : Sections steps notes since)
      (hs : Section s since more now) : Sections (steps ++ [s]) (notes ++ more) now

/-- What is seen of the first step of a list while it is under way; nothing if it is not. -/
inductive Opening (since : Nat) : List Step → List Note → Prop
  | none (steps : List Step) : Opening since steps []
  | entered {s : Step} {notes : List Note} (h : Enter s since notes) (steps : List Step) : Opening since (s :: steps) notes
  | counting {s : Step} {notes : List Note} {total : Nat} (hs : s.waitMs? = some total) (h : Count s total since notes)
      (steps : List Step) : Opening since (s :: steps) notes

/-- The step that becomes active. -/
def activated? (n : Note) : Option Step :=
  match n.sight with
  | .active s => some s
  | .event _ => Option.none

/-- The steps that became active, in order. -/
def activated (notes : List Note) : List Step := notes.filterMap activated?

theorem activated_append (notes more : List Note) : activated (notes ++ more) = activated notes ++ activated more :=
  List.filterMap_append ..

theorem Enter.activated_eq {s : Step} {since : Nat} {notes : List Note} (h : Enter s since notes) : activated notes = [s] := by
  obtain ⟨a, b, rfl, ha, hb⟩ := h
  simp [activated, activated?, ha.sight_eq, hb.sight_eq]

theorem Count.activated_eq {s : Step} {total since : Nat} {notes : List Note} (h : Count s total since notes) :
    activated notes = [s] := by
  obtain ⟨opening, first, reports, rfl, henter, -, hcounts⟩ := h
  have hnone : activated (first :: reports) = [] := by
    refine List.filterMap_eq_nil_iff.2 fun n hn => ?_
    obtain ⟨ms, hsight, -⟩ := hcounts n hn
    simp [activated?, hsight]
  rw [activated_append, henter.activated_eq, hnone, List.append_nil]

theorem Section.activated_eq {s : Step} {since now : Nat} {notes : List Note} (h : Section s since notes now) :
    activated notes = [s] := by
  cases h with
  | brief _ hnotes => exact hnotes.activated_eq
  | wait _ hnotes hlast =>
    rw [activated_append, hnotes.activated_eq]
    simp [activated, activated?, hlast.sight_eq]

theorem Section.now_eq {s : Step} {since now : Nat} {notes : List Note} (h : Section s since notes now) :
    now = since + s.waitMs := by
  cases h with
  | brief hs => simp [Step.waitMs, hs]
  | wait hs => simp [Step.waitMs, hs]

theorem Sections.activated_eq {steps : List Step} {now : Nat} {notes : List Note} (h : Sections steps notes now) :
    activated notes = steps := by
  induction h with
  | nil => rfl
  | snoc _ hs ih => rw [activated_append, ih, hs.activated_eq]

/-- The sections of an account take the time of their waits. -/
theorem Sections.now_eq {steps : List Step} {now : Nat} {notes : List Note} (h : Sections steps notes now) :
    now = Step.waitTotal steps := by
  induction h with
  | nil => rfl
  | snoc _ hs ih =>
    rw [hs.now_eq, ih, Step.waitTotal_append]
    simp [Step.waitTotal]

theorem Opening.activated_eq {since : Nat} {steps : List Step} {notes : List Note} (h : Opening since steps notes) :
    activated notes <+: steps := by
  cases h with
  | none => exact List.nil_prefix
  | entered h => rw [h.activated_eq]; exact ⟨_, rfl⟩
  | counting _ h => rw [h.activated_eq]; exact ⟨_, rfl⟩

/-- A report of a wait follows. -/
theorem Count.snoc {s : Step} {total since : Nat} {notes : List Note} (h : Count s total since notes) {n : Note}
    (hn : n.Counts s.id total since) : Count s total since (notes ++ [n]) := by
  obtain ⟨opening, first, reports, rfl, henter, hfirst, hcounts⟩ := h
  refine ⟨opening, first, reports ++ [n], by simp, henter, hfirst, fun k hk => ?_⟩
  rw [← List.cons_append] at hk
  rcases List.mem_append.1 hk with hk | hk
  · exact hcounts k hk
  · rw [List.mem_singleton.1 hk]; exact hn

end Note

namespace Course

open Note

/-! ## The account of a course -/

/-- How the account of what a run is in stands. Of a wait, what is left and the time for which the run
has been awake since it became active come to its total. -/
inductive Stands (now : Instant) (awake since : Nat) : Activity → List StepTimer.Step → List Note → Prop
  | between {x : Activity} (hx : x.isBetween = true) (h : awake = since) : Stands now awake since x [] []
  | entered {s : StepTimer.Step} {notes : List Note} (h : awake = since) (hnotes : Enter s since notes) :
      Stands now awake since (.entering s) [s] notes
  | counting {s : StepTimer.Step} {t : Ticking} {total : Nat} {notes : List Note} (hs : s.waitMs? = some total)
      (hnotes : Count s total since notes) (ht : t.InOrder now) (hf : t.floor = 0) (hr : t.reportAs = some s.id)
      (hle : since ≤ awake) (hleft : t.countdown.left now = total - (awake - since : Nat)) :
      Stands now awake since (.counting s.id t) [s] notes

/-- The account of some steps up to now, the last of them perhaps still under way. -/
def Balanced (now : Instant) (awake : Nat) (x : Activity) (steps : List StepTimer.Step) (notes : List Note) : Prop :=
  ∃ past current old new since, steps = past ++ current ∧ notes = old ++ new ∧ Sections past old since ∧
    Stands now awake since x current new

variable {now : Instant} {awake : Nat} {x y : Activity} {steps : List StepTimer.Step} {notes : List Note}
  {fallback : String} {c : Circumstances} {d : Devices} {m : Move} {signals : Signals}

/-- Between two steps all sections are closed. -/
theorem Balanced.of_between (h : Balanced now awake x steps notes) (hx : x.isBetween = true) :
    Sections steps notes awake := by
  obtain ⟨past, current, old, new, since, rfl, rfl, hpast, hstands⟩ := h
  cases hstands with
  | between _ h => subst h; simpa using hpast
  | entered => cases hx
  | counting => cases hx

theorem balanced_of_sections (h : Sections steps notes awake) (hx : x.isBetween = true) (now : Instant) :
    Balanced now awake x steps notes :=
  ⟨steps, [], notes, [], awake, by simp, by simp, h, .between hx rfl⟩

theorem Balanced.wake (h : Balanced now awake x steps notes) : Balanced now awake x.wake steps notes := by
  obtain ⟨past, current, old, new, since, rfl, rfl, hpast, hstands⟩ := h
  refine ⟨past, current, old, new, since, rfl, rfl, hpast, ?_⟩
  cases hstands with
  | between hx h => exact .between (Activity.isBetween_wake hx) h
  | entered h hnotes => exact .entered h hnotes
  | counting hs hnotes hin hf hr hle hleft => exact .counting hs hnotes hin hf hr hle hleft

/-- A step becomes active. -/
theorem Balanced.activates (h : Balanced now awake x steps notes) (hx : x.isBetween = true) (s : StepTimer.Step) :
    Balanced now awake (.entering s) (steps ++ [s])
      (notes ++ [⟨awake, signals, .active s⟩, ⟨awake, signals, .event (.progress s.id none)⟩]) := by
  have henter : Enter s awake [⟨awake, signals, .active s⟩, ⟨awake, signals, .event (.progress s.id none)⟩] :=
    ⟨_, _, rfl, ⟨rfl, rfl⟩, ⟨rfl, rfl⟩⟩
  exact ⟨steps, [s], notes, _, awake, rfl, rfl, h.of_between hx, .entered rfl henter⟩

/-- A step that has become active is over at once, or its total is reported. -/
theorem Balanced.entering {s : StepTimer.Step} (h : Balanced c.now awake (.entering s) steps notes)
    (hs : s.Unrolls Action.Idles) :
    Balanced c.now awake (Activity.beginStep c d s).next steps
      (notes ++ (Activity.beginStep c d s).events.map fun e => ⟨awake, signals, .event e⟩) := by
  obtain ⟨past, current, old, new, since, rfl, rfl, hpast, hstands⟩ := h
  cases hstands with
  | between hx => cases hx
  | entered h hnotes =>
    subst h
    have hbrief (hwait : s.waitMs? = none) : Sections (past ++ [s]) (old ++ new) awake := hpast.snoc (.brief hwait hnotes)
    cases s with
    | leaf id action =>
      cases action with
      | wait amount unit =>
        have hat := Countdown.isAt_start (unit.durationMillis amount) c.now
        have hleft := Countdown.left_start hs c.now
        have hreport : ((Countdown.start (unit.durationMillis amount) c.now).remainingMs.toNat : Int) =
            (unit.durationMillis amount).toNat := by
          rw [hat.remainingMs, hleft]
        refine ⟨past, _, old, _, awake, rfl, List.append_assoc .., hpast, .counting (s := .leaf id (.wait amount unit)) rfl
          ⟨new, _, [], rfl, hnotes, rfl, fun n hn => ?_⟩ (Ticking.inOrder_start hat hat.nonneg _) rfl rfl (Nat.le_refl _) ?_⟩
        · rw [List.mem_singleton.1 hn]
          refine ⟨_, rfl, Nat.le_refl _, ?_⟩
          dsimp only
          omega
        · rw [Nat.sub_self]
          exact hleft.trans (Int.sub_zero _).symm
      | unknown => simpa [Activity.beginStep, Activity.beginAction] using balanced_of_sections (hbrief rfl) rfl c.now
      | _ => cases hs
    | block id frame children =>
      cases frame with
      | notifyUntil alert => cases hs
      | loop count =>
        obtain ⟨-, -, hb | ⟨-, hb⟩⟩ := Activity.beginLoop_of_unrolls hs c d
        all_goals
          rw [hb, List.map_nil, List.append_nil]
          exact balanced_of_sections (hbrief rfl) rfl c.now

/-- A wait goes on, and reports what is left of it, or it is over. -/
theorem Balanced.counting {id : StepId} {t : Ticking} (h : Balanced c.now awake (.counting id t) steps notes)
    (ha : c.signals.aborted = false) (hm : (Activity.counting id t).advance c d = some m) :
    Balanced c.now awake m.next steps (notes ++ m.events.map fun e => ⟨awake, signals, .event e⟩) := by
  obtain ⟨past, current, old, new, since, rfl, rfl, hpast, hstands⟩ := h
  obtain ⟨tm, htm, rfl⟩ := Option.map_eq_some_iff.1 hm
  cases hstands with
  | between hx => cases hx
  | @counting s _ total _ hs hnotes hin hf hr hle hleft =>
    obtain ⟨cd, rfl, hends⟩ | ⟨t', ht', hgoes⟩ := hin.advance htm
    · have hover : awake = since + total := by
        rcases hends.cause with hcause | hcause | hcause
        · rw [ha] at hcause; cases hcause
        · cases hcause
        · rw [hends.left, hleft, hf] at hcause
          omega
      have hsection : Section s since (new ++ [⟨awake, signals, .event (.progress s.id none)⟩]) (since + total) :=
        .wait hs hnotes ⟨hover, rfl⟩
      have hall := hpast.snoc hsection
      rw [← hover, ← List.append_assoc] at hall
      exact balanced_of_sections hall rfl c.now
    · have hstands' {more : List Note} (hmore : Count s total since more) :
          Stands c.now awake since (.counting s.id t') [s] more :=
        .counting hs hmore hgoes.inOrder (hgoes.floor.trans hf) (hgoes.reportAs.trans hr) hle (hgoes.left.trans hleft)
      cases tm with
      | ended cd => cases ht'
      | goes t₁ =>
        cases ht'
        exact ⟨past, [s], old, new, since, rfl, by simp, hpast, hstands' hnotes⟩
      | ticked t₁ =>
        cases ht'
        have hreport : t'.report = [.progress s.id (some t'.countdown.remainingMs)] := by
          rw [Ticking.report, hgoes.reportAs, hr]
        have hms := hgoes.isAt.remainingMs
        rw [hgoes.left, hleft] at hms
        have hcounts : Note.Counts ⟨awake, signals, .event (.progress s.id (some t'.countdown.remainingMs))⟩ s.id total since := by
          refine ⟨_, rfl, hle, ?_⟩
          dsimp only
          omega
        dsimp only
        rw [hreport]
        exact ⟨past, [s], old, _, since, rfl, List.append_assoc .., hpast, hstands' (hnotes.snoc hcounts)⟩

/-- What a move shows keeps the account balanced, and it takes the steps that are activated from those
ahead. -/
theorem Balanced.move {a : Activity} (h : Balanced c.now awake a.core steps notes) (signals : Signals)
    (hu : a.Unrolls fallback Action.Idles) (ha : c.signals.aborted = false) (hm : a.advance c d = some m) :
    ∃ steps', steps ++ a.ahead = steps' ++ m.next.ahead ∧
      Balanced c.now awake m.next.core steps' (notes ++ (a.sights m).map fun x => ⟨awake, signals, x⟩) := by
  cases Activity.coreMove_advance hu ha hm with
  | idle hcore hnext hahead hd hs =>
    rw [hs, hahead, List.map_nil, List.append_nil]
    exact ⟨steps, rfl, balanced_of_sections (h.of_between hcore) hnext c.now⟩
  | activates s hcore hnext hahead hd hs =>
    rw [hs, hahead, hnext]
    exact ⟨steps ++ [s], by simp, h.activates hcore s⟩
  | @acts m' hcore hm' hnext hahead hd hs =>
    rw [hs, hahead, hnext, List.map_map]
    refine ⟨steps, rfl, ?_⟩
    have hacts := Activity.acts_core hu hcore
    generalize a.core = x at h hm' hacts
    cases hacts with
    | entering hidle => cases hm'; exact h.entering hidle
    | counting id t => exact h.counting ha hm'
    | sound hspec => rcases hspec with hspec | hspec <;> cases hspec
    | notifying hok => cases hok

/-- Time that passes in a wait is time for which the run is awake, unless it is paused. -/
theorem Balanced.pass {id : StepId} {t : Ticking} (h : Balanced now awake (.counting id t) steps notes)
    (hn : t.advance now signals false = none) {ms : Nat} (halarms : ∀ x ∈ t.alarms, (now.plusMillis ms).nanos ≤ x.nanos) :
    Balanced (now.plusMillis ms) (awake + if signals.paused then 0 else ms) (.counting id t) steps notes := by
  obtain ⟨past, current, old, new, since, rfl, rfl, hpast, hstands⟩ := h
  cases hstands with
  | between hx => cases hx
  | counting hs hnotes hin hf hr hle hleft =>
    obtain ⟨hin', hleft'⟩ := hin.pass hn halarms
    refine ⟨past, _, old, new, since, rfl, rfl, hpast, .counting hs hnotes hin' hf hr (Nat.le_add_right_of_le hle) ?_⟩
    rw [hleft', hleft]
    omega

/-- A course of waits that is not aborted: its account is balanced, and the rest of its list is ahead. -/
structure Waiting (w : Course) (steps : List StepTimer.Step) : Prop where
  aborted : w.run.signals.aborted = false
  unrolls : w.run.activity.Unrolls w.run.equipment.defaultSound Action.Idles
  balanced : ∃ past, Step.unrolledAll steps = past ++ w.run.activity.ahead ∧
    Balanced w.run.now w.awake w.run.activity.core past w.notes

variable {w w' : Course}

theorem Waiting.moved (h : w.Waiting steps) {coin : Bool} {m : Move} (hm : w.run.advance coin = some m) :
    (w.moved m).Waiting steps := by
  obtain ⟨past, hsteps, hbalanced⟩ := h.balanced
  obtain ⟨past', hpast, hbalanced'⟩ := Balanced.move (c := { w.run.circumstances with coin := coin }) hbalanced
    w.run.signals h.unrolls h.aborted hm
  exact ⟨h.aborted, Activity.advance_unrolls h.unrolls rfl hm, past', hsteps.trans hpast, hbalanced'⟩

theorem Waiting.woken (h : w.Waiting steps) : w.woken.Waiting steps := by
  refine ⟨h.aborted, Activity.unrolls_wake h.unrolls, ?_⟩
  show ∃ past, Step.unrolledAll steps = past ++ w.run.activity.wake.ahead ∧
    Balanced w.run.now w.awake w.run.activity.wake.core past w.notes
  rw [Activity.ahead_wake, Activity.core_wake]
  obtain ⟨past, hsteps, hbalanced⟩ := h.balanced
  exact ⟨past, hsteps, hbalanced.wake⟩

theorem Waiting.disturbed (h : w.Waiting steps) {x : Disturbance} (hx : x ≠ .control .abort) :
    (w.disturbed x).Waiting steps := by
  refine ⟨(w.aborted_disturbed hx).trans h.aborted, ?_, ?_⟩
  · rw [w.activity_disturbed, w.equipment_disturbed]; exact h.unrolls
  · rw [w.activity_disturbed, w.now_disturbed, w.awake_disturbed, w.notes_disturbed]; exact h.balanced

theorem Waiting.passed (h : w.Waiting steps) {ms : Nat} (hw : w.run.Waits)
    (halarms : ∀ t ∈ w.run.activity.alarms, (w.run.now.plusMillis ms).nanos ≤ t.nanos) :
    (w.passed ms).Waiting steps := by
  refine ⟨by rw [w.signals_passed]; exact h.aborted, by rw [w.activity_passed, w.equipment_passed]; exact h.unrolls, ?_⟩
  obtain ⟨past, hsteps, hbalanced⟩ := h.balanced
  rw [w.activity_passed, w.now_passed, w.awake_passed, w.notes_passed]
  refine ⟨past, hsteps, ?_⟩
  obtain ⟨hcore, hrest⟩ | ⟨hcore, hn⟩ := Activity.core_of_advance_eq_none h.unrolls h.aborted hw.1 (hw.2 true)
  · have hzero : w.waking ms = 0 := hrest.elim (waking_of_isDone · ms) (waking_of_paused · ms)
    rw [hzero]
    exact balanced_of_sections (hbalanced.of_between hcore) hcore _
  · have hdone : w.run.activity.isDone = false := by
      refine Bool.eq_false_iff.2 fun hd => ?_
      rw [Activity.core_of_isDone hd] at hcore
      cases hcore
    rw [← Activity.alarms_core h.unrolls] at halarms
    rw [waking_of_not_isDone hdone]
    have hacts := Activity.acts_core h.unrolls hcore
    generalize w.run.activity.core = x at hbalanced hn halarms hacts
    cases hacts with
    | entering => cases hn
    | counting id t => exact hbalanced.pass (Option.map_eq_none_iff.1 hn) halarms
    | sound hspec => rcases hspec with hspec | hspec <;> cases hspec
    | notifying hok => cases hok

theorem Waiting.step (h : w.Waiting steps) (hs : Step (fun x => x ≠ .control .abort) w w') : w'.Waiting steps := by
  cases hs with
  | disturb x hx => exact h.disturbed hx
  | move coin hm => exact h.moved hm
  | wake _ => exact h.woken
  | pass ms _ hw halarms => exact h.passed hw halarms

theorem Begins.waiting (h : w.Begins steps) (ha : w.run.signals.aborted = false)
    (hidle : ∀ s ∈ steps, s.Unrolls Action.Idles) : w.Waiting steps := by
  refine ⟨ha, ?_, [], ?_, [], [], [], [], 0, rfl, h.notes, .nil, ?_⟩
  · rw [h.activity]; exact Step.unrollAll_iff.2 hidle
  · rw [h.activity]; rfl
  · rw [h.activity]; exact .between rfl h.awake

theorem Stands.opening {since : Nat} {current : List StepTimer.Step} (h : Stands now awake since x current notes)
    (rest : List StepTimer.Step) : Opening since (current ++ rest) notes := by
  cases h with
  | between => exact .none _
  | entered _ hnotes => exact .entered hnotes rest
  | counting hs hnotes => exact .counting hs hnotes rest

/-- The account of a run of waits, of steps that do nothing and of loops over them, under any pauses.
Its notes are those of the steps of the unrolled list in order, each with all its reports, and of the
one under way, with its reports so far. A run that is over has been through the whole list, and was
awake for exactly as long as the waits of the list take. -/
theorem account_of_waits {w₀ w : Course} {steps : List StepTimer.Step} (h₀ : w₀.Begins steps)
    (hidle : ∀ s ∈ steps, s.Unrolls Action.Idles) (ha : w₀.run.signals.aborted = false)
    (h : Later (fun x => x ≠ .control .abort) w₀ w) :
    (∃ past rest old new since, Step.unrolledAll steps = past ++ rest ∧ w.notes = old ++ new ∧
      Sections past old since ∧ Opening since rest new) ∧
    activated w.notes <+: Step.unrolledAll steps ∧
    (w.run.activity.isDone = true → Sections (Step.unrolledAll steps) w.notes w.awake ∧
      activated w.notes = Step.unrolledAll steps ∧ w.awake = Step.waitTotal (Step.unrolledAll steps)) := by
  have hw : w.Waiting steps := h.induction (P := fun w => w.Waiting steps) (fun _ _ hv hs => hv.step hs)
    (h₀.waiting ha hidle)
  obtain ⟨begun, hsteps, hbalanced⟩ := hw.balanced
  refine ⟨?_, ?_, fun hd => ?_⟩
  · obtain ⟨past, current, old, new, since, rfl, hnotes, hpast, hstands⟩ := hbalanced
    rw [List.append_assoc] at hsteps
    exact ⟨past, _, old, new, since, hsteps, hnotes, hpast, hstands.opening w.run.activity.ahead⟩
  · obtain ⟨past, current, old, new, since, rfl, hnotes, hpast, hstands⟩ := hbalanced
    have hopening := hstands.opening w.run.activity.ahead
    rw [hnotes, hsteps, activated_append, hpast.activated_eq, List.append_assoc]
    exact (List.prefix_append_right_inj past).2 hopening.activated_eq
  · have hcore : w.run.activity.core.isBetween = true := by rw [Activity.core_of_isDone hd]; rfl
    have hall : Step.unrolledAll steps = begun := by simpa [Activity.ahead_of_isDone hd] using hsteps
    have hsections := hbalanced.of_between hcore
    rw [hall]
    exact ⟨hsections, hsections.activated_eq, hsections.now_eq⟩

/-- A wait of a fifth of a second, two times. -/
def twoTurns : Course :=
  ⟨.ofSteps ⟨fun _ _ => .endless, .off, "bell", fun _ => ⟨0⟩⟩
    [.block "turns" (.loop (.times 2)) [.leaf "turn" (.wait (.ofRatio false 1 5) .seconds)]], 0, []⟩

/-- The first wait is paused in the middle, for a second. -/
def twoTurnsPaused : Course := (((twoTurns.goOn 20).passed 150).disturbed (.control .pause)).goOn 20

/-- The second wait has begun. -/
def twoTurnsAgain : Course :=
  ((((((twoTurnsPaused.passed 1000).disturbed (.control .resume)).goOn 20).passed 50).goOn 20).woken).goOn 20

/-- Both waits are over. -/
def twoTurnsOver : Course := (((twoTurnsAgain.passed 200).goOn 20).woken).goOn 20

theorem later_twoTurnsOver : Later (fun x => x ≠ .control .abort) twoTurns twoTurnsOver := by
  have hpaused : Later (fun x => x ≠ .control .abort) twoTurns twoTurnsPaused :=
    .trans (moves_goOn 20 _).later (.head (.pass 150 (by decide) (Solo.waits_of_sides rfl rfl rfl) (by decide))
      (.head (.disturb _ (by simp)) (moves_goOn 20 _).later))
  have hagain : Later (fun x => x ≠ .control .abort) twoTurnsPaused twoTurnsAgain :=
    .head (.pass 1000 (by decide) (Solo.waits_of_sides rfl rfl rfl) (by decide)) (.head (.disturb _ (by simp))
      (.trans (moves_goOn 20 _).later (.head (.pass 50 (by decide) (Solo.waits_of_sides rfl rfl rfl) (by decide))
        (.trans (moves_goOn 20 _).later (.head (.wake rfl) (moves_goOn 20 _).later)))))
  have hover : Later (fun x => x ≠ .control .abort) twoTurnsAgain twoTurnsOver :=
    .head (.pass 200 (by decide) (Solo.waits_of_sides rfl rfl rfl) (by decide)) (.trans (moves_goOn 20 _).later
      (.head (.wake rfl) (moves_goOn 20 _).later))
  exact hpaused.trans (hagain.trans hover)

/-- The paused second is not counted, and each of the two waits has all its reports. -/
theorem account_of_waits_twoTurns :
    twoTurnsOver.run.activity.isDone = true ∧ twoTurnsOver.notes.length = 13 ∧ twoTurnsOver.awake = 400 ∧
      Sections (Step.unrolledAll [.block "turns" (.loop (.times 2)) [.leaf "turn" (.wait (.ofRatio false 1 5) .seconds)]])
        twoTurnsOver.notes twoTurnsOver.awake := by
  have hbegins : twoTurns.Begins
      [.block "turns" (.loop (.times 2)) [.leaf "turn" (.wait (.ofRatio false 1 5) .seconds)]] := ⟨rfl, rfl, rfl⟩
  have hidle : ∀ s ∈ [StepTimer.Step.block "turns" (.loop (.times 2)) [.leaf "turn" (.wait (.ofRatio false 1 5) .seconds)]],
      s.Unrolls Action.Idles := by
    intro s hs
    have hle : ((DurationUnit.seconds.durationMillis (.ofRatio false 1 5)).toNat : Int) ≤ countMax := by decide
    rw [List.mem_singleton.1 hs]
    exact ⟨hle, trivial⟩
  have hdone : twoTurnsOver.run.activity.isDone = true := rfl
  exact ⟨hdone, rfl, rfl, ((account_of_waits hbegins hidle rfl later_twoTurnsOver).2.2 hdone).1⟩

end Course

end StepTimer
