/-
What a stop leads to. From the moment a run is stopped it plays no sound and enters no step. If it is
in no call to the notifier, or in the round of an alert, it comes to its end at that very instant;
otherwise at the instant at which the call returns, or that which the call leads to when it grants a
permission, and at the end of its grace at the latest.

The proof follows the run through the history: it stays aborted and guarded and its sound cut
(`IsStopped`), a move of it lets it await no new call (`Follow`), and so it is held by nothing but the
call it was stopped in.
-/
import StepTimer.Proofs.Run.Clock

namespace StepTimer

/-- What holds of a run once it is stopped. -/
structure Run.IsStopped (x : Run) (ch : Channel) : Prop where
  aborted : x.signals.aborted = true
  guarded : x.activity.isGuarded = true
  cut : ∀ call, x.activity.call? = some call → ch.isCut call.number = true

namespace Awaited

/-- What a stopped run may await after some moves at an instant: what it awaited before them, or, when
that is over, nothing or the call that a granted permission leads to. -/
inductive Follow (now : Instant) : Option Awaited → Option Awaited → Prop
  | same (o : Option Awaited) : Follow now o o
  | moved {v : Awaited} {o : Option Awaited} (h : v.IsOver now)
      (hf : ∀ v', o = some v' → v.phase.isGranted = true ∧ v'.grace = v.grace ∧ v'.IsShowing now) :
      Follow now (some v) o

theorem Follow.trans {now : Instant} {o o' o'' : Option Awaited} (h : Follow now o o') (h' : Follow now o' o'') :
    Follow now o o'' := by
  cases h with
  | same => exact h'
  | moved hv hf =>
    cases h' with
    | same => exact .moved hv hf
    | @moved v' _ hv' hf' =>
      -- the call that shows the notification leads to no other
      refine .moved hv fun v'' hv'' => ?_
      have hlast := (hf v' rfl).2.2.last
      rw [(hf' v'' hv'').1] at hlast
      cases hlast

end Awaited

open Awaited (Follow)

/-- A move of a stopped run. -/
theorem Activity.follow_advance {c : Circumstances} {d : Devices} {a : Activity} {m : Move}
    (hg : a.isGuarded = true) (h : a.advance c d = some m) : Follow c.now a.awaits? m.next.awaits? := by
  have hmove := Activity.advance_awaits h
  cases ho : a.awaits? with
  | none =>
    cases ho' : m.next.awaits? with
    | none => exact .same none
    | some v' =>
      rw [ho, ho'] at hmove
      rcases hmove.of_some with ⟨-, -, hng⟩ | ⟨u, hu, -⟩
      · rw [hg] at hng; cases hng
      · cases hu
  | some v =>
    refine .moved (Activity.isOver_of_advance h ho) fun v' hv' => ?_
    rw [ho, hv'] at hmove
    rcases hmove.of_some with ⟨hu, -⟩ | ⟨u, hu, hgr, hgrace, hshow⟩
    · cases hu
    · cases hu; exact ⟨hgr, hgrace, hshow⟩

namespace Runner

variable {r r' : Runner} {now : Instant} {run : RunId}

/-- A run is stopped, if it is in the table. -/
def IsStopped (r : Runner) (run : RunId) : Prop := ∀ x, r.run? run = some x → x.IsStopped r.devices.channel

/-! ## Moves of a stopped run -/

/-- After a move of a stopped run it is gone, or it is stopped and has less before it. -/
theorem advance_isStopped {x : Run} {coin : Bool} {events : List Event} (hx : r.run? run = some x)
    (hst : x.IsStopped r.devices.channel) (ha : r.advance run coin now = some (r', events)) :
    (∀ url, .play url ∉ events) ∧ (r'.run? run = none ∨ ∃ x', r'.run? run = some x' ∧
      x'.IsStopped r'.devices.channel ∧ x'.activity.span < x.activity.span ∧
      Follow now x.activity.awaits? x'.activity.awaits?) := by
  obtain ⟨x₀, hx₀, hcase⟩ := run?_advance_self ha
  rw [hx] at hx₀; cases hx₀
  rcases hcase with ⟨-, hgone, -, rfl⟩ | ⟨m, hm, hnext, hd, rfl⟩
  · exact ⟨by simp, Or.inl hgone⟩
  · have hw := Activity.windsDown_advance hst.aborted hst.guarded hm
    refine ⟨hw.quiet, Or.inr ⟨_, hnext, ⟨hst.aborted, hw.guarded, ?_⟩, hw.span, ?_⟩⟩
    · rw [hd]
      exact (Activity.advance_call hm).isCut_self hst.guarded hst.aborted hst.cut
    · exact Activity.follow_advance hst.guarded hm

theorem IsStopped.advance_self (hst : r.IsStopped run) {coin : Bool} {events : List Event}
    (ha : r.advance run coin now = some (r', events)) : r'.IsStopped run := by
  obtain ⟨x, hx, -⟩ := run?_advance_self ha
  intro y hy
  rcases (advance_isStopped hx (hst x hx) ha).2 with hgone | ⟨x', hx', hst', -⟩
  · rw [hgone] at hy; cases hy
  · rw [hx'] at hy; cases hy; exact hst'

/-- A stopped run makes no step active. -/
theorem IsStopped.entered?_eq_none (hst : r.IsStopped run) : r.entered? run = none := by
  unfold entered?
  cases hx : r.run? run with
  | none => rfl
  | some x => exact Activity.entered?_of_isGuarded (hst x hx).guarded

theorem IsStopped.wake (hst : r.IsStopped run) (run' : RunId) : (r.wake run').IsStopped run := by
  intro y hy
  obtain ⟨x, hx, rfl | rfl⟩ := run_of_wake r hy
  · exact hst y hx
  · have h := hst x hx
    exact ⟨h.aborted, Activity.isGuarded_wake h.guarded, fun call hc => h.cut call (x.activity.call?_wake ▸ hc)⟩

/-- The moves of others take nothing back. -/
theorem IsStopped.advance_other (hst : r.IsStopped run) {run' : RunId} (hne : run ≠ run') {coin : Bool}
    {events : List Event} (ha : r.advance run' coin now = some (r', events)) : r'.IsStopped run := by
  intro y hy
  rw [run?_advance_ne r now run' ha hne] at hy
  have h := hst y hy
  refine ⟨h.aborted, h.guarded, fun call hc => ?_⟩
  obtain ⟨x, hx, -⟩ := run?_advance_self ha
  rcases channel_advance ha hx with hch | ⟨m, -, hmove⟩
  · rw [hch]; exact h.cut call hc
  · exact hmove.isCut (h.cut call hc)

theorem IsStopped.perform (hst : r.IsStopped run) (ht : r.Tied) (hlt : run < r.nextRun) (now : Instant) (op : Op) :
    (r.perform now op).IsStopped run := by
  intro y hy
  rcases kin_perform now run ht.unused op with hk | ⟨t, -, -, hn⟩
  · rw [hy] at hk
    obtain ⟨x, hx, hkin⟩ := hk.of_some
    have h := hst x hx
    refine ⟨hkin.aborted h.aborted, by rw [hkin.activity]; exact h.guarded, fun call hc => ?_⟩
    exact (cuts_perform r now op).isCut _ (h.cut call (hkin.activity ▸ hc))
  · exact absurd hn.1 (Nat.ne_of_lt hlt)

/-! ## Polls of a stopped run -/

/-- In the moves of a stopped run no sound is played and no step becomes active. If it is in the table
after them, it has not moved, or has less before it. -/
theorem Moves.winds {events : List Event} {steps : List Step} (hm : Moves run now r events steps r')
    (hst : r.IsStopped run) :
    r'.IsStopped run ∧ steps = [] ∧ (∀ url, .play url ∉ events) ∧
      ∀ x', r'.run? run = some x' → ∃ x, r.run? run = some x ∧ Follow now x.activity.awaits? x'.activity.awaits? ∧
        (x'.activity.span < x.activity.span ∨ x' = x ∧ ∀ coin, r.advance run coin now = none) := by
  induction hm with
  | rest h => exact ⟨hst, rfl, by simp, fun x' hx' => ⟨x', hx', .same _, Or.inr ⟨rfl, h⟩⟩⟩
  | @move r r₁ r₂ events events' steps coin ha hs ih =>
    obtain ⟨x, hx, -⟩ := run?_advance_self ha
    obtain ⟨hquiet, hcase⟩ := advance_isStopped hx (hst x hx) ha
    have hst₁ := hst.advance_self ha
    obtain ⟨hst₂, hsteps, hquiet', hrest⟩ := ih hst₁
    refine ⟨hst₂, by rw [hst₁.entered?_eq_none, hsteps]; rfl, fun url hmem => ?_, fun x' hx' => ?_⟩
    · rcases List.mem_append.1 hmem with hmem | hmem
      · exact hquiet url hmem
      · exact hquiet' url hmem
    · obtain ⟨x₁, hx₁, hfollow, hspan⟩ := hrest x' hx'
      rcases hcase with hgone | ⟨x₁', hx₁', -, hlt, hfollow'⟩
      · rw [hgone] at hx₁; cases hx₁
      · rw [hx₁'] at hx₁; cases hx₁
        refine ⟨x, hx, hfollow'.trans hfollow, Or.inl ?_⟩
        rcases hspan with hlt' | ⟨rfl, -⟩
        · exact Nat.lt_trans hlt' hlt
        · exact hlt

/-- The moves of a stopped run come to an end. -/
theorem exists_moves (now : Instant) (hst : r.IsStopped run) :
    ∃ events steps r', Moves run now r events steps r' := by
  generalize hn : ((r.run? run).map (·.activity.span)).getD 0 = n
  induction n using Nat.strongRecOn generalizing r with
  | _ n ih =>
    by_cases hrest : ∀ coin, r.advance run coin now = none
    · exact ⟨_, _, _, .rest hrest⟩
    · obtain ⟨coin, hcoin⟩ := Classical.not_forall.1 hrest
      obtain ⟨⟨r₁, events⟩, ha⟩ := Option.ne_none_iff_exists'.1 hcoin
      obtain ⟨x, hx, -⟩ := run?_advance_self ha
      rw [hx] at hn
      rcases (advance_isStopped hx (hst x hx) ha).2 with hgone | ⟨x', hx', -, hlt, -⟩
      · have hnone : ∀ coin, r₁.advance run coin now = none := fun coin => by unfold advance; rw [hgone]; rfl
        exact ⟨_, _, _, .move coin ha (.rest hnone)⟩
      · obtain ⟨events', steps, r₂, hm⟩ := ih _ (by rw [← hn]; exact hlt) (hst.advance_self ha) (by rw [hx']; rfl)
        exact ⟨_, _, _, .move coin ha hm⟩

/-- A stopped run that is held by no call goes on: it cannot be that no run can, and every poll of it
leaves less of it. -/
theorem IsStopped.goes (hst : r.IsStopped run) {x : Run} (hx : r.run? run = some x)
    (hover : ∀ v, x.activity.awaits? = some v → v.IsOver now) :
    ¬ r.Idle now ∧ ∀ events steps r', r.Poll run now events steps r' → ∀ x', r'.run? run = some x' →
      x'.activity.span < x.activity.span := by
  have hsome (r : Runner) (x : Run) (hx : r.run? run = some x) (hst : x.IsStopped r.devices.channel)
      (hy : x.activity.hasYielded = false) (hover : ∀ v, x.activity.awaits? = some v → v.IsOver now) :
      r.advance run true now ≠ none := by
    cases hd : x.activity.isDone with
    | true => rw [advance_of_isDone r now hx hd]; simp
    | false =>
      rw [advance_eq_map r now hx hd, Ne, Option.map_eq_none_iff]
      have h := Activity.isSome_advance_of_aborted (c := r.circumstances x now true) hst.aborted hd hy hst.cut hover
      exact Option.isSome_iff_ne_none.1 h
  refine ⟨fun hidle => ?_, fun events steps r' hp x' hx' => ?_⟩
  · obtain ⟨hy, hrest⟩ := hidle run x hx
    exact hsome r x hx (hst x hx) hy hover (hrest true)
  · have hwake : (r.wake run).run? run = some { x with activity := x.activity.wake } := by
      rw [run?_wake, if_pos rfl, hx]; rfl
    obtain ⟨-, -, -, hrest⟩ := Moves.winds hp (hst.wake run)
    obtain ⟨x₁, hx₁, -, hspan⟩ := hrest x' hx'
    rw [hwake] at hx₁; cases hx₁
    have hle : x.activity.wake.span ≤ x.activity.span := by
      rcases x.activity.span_wake with hlt | ⟨heq, -⟩
      · exact Nat.le_of_lt hlt
      · exact Nat.le_of_eq (congrArg Activity.span heq)
    rcases hspan with hlt | ⟨rfl, hnone⟩
    · exact Nat.lt_of_lt_of_le hlt hle
    · refine absurd (hnone true) (hsome _ _ hwake (hst.wake run _ hwake) x.activity.hasYielded_wake ?_)
      rw [Activity.awaits?_wake]
      exact hover

end Runner

/-! ## Histories -/

/-- A call that a run was stopped in, or the one that it led to. -/
def Awaited.Leads (v v' : Awaited) : Prop :=
  v' = v ∨ v.phase.isGranted = true ∧ v'.phase.isGranted = false ∧ v'.grace = v.grace

theorem Awaited.IsOver.mono {v : Awaited} {now now' : Instant} (h : v.IsOver now) (hle : now.nanos ≤ now'.nanos) :
    v.IsOver now' := by
  obtain ⟨t, ht, hle'⟩ := h
  exact ⟨t, ht, Nat.le_trans hle' hle⟩

theorem Awaited.Leads.grace_eq {v v' : Awaited} (h : v.Leads v') : v'.grace = v.grace := by
  rcases h with rfl | ⟨-, -, h⟩
  · rfl
  · exact h

namespace Runner

variable {r r' : Runner} {now : Instant} {run : RunId}

/-- What a run is doing. -/
def activity? (r : Runner) (run : RunId) : Option Activity := (r.run? run).map (·.activity)

theorem activity?_eq_some {a : Activity} : r.activity? run = some a ↔ ∃ x, r.run? run = some x ∧ x.activity = a :=
  Option.map_eq_some_iff

theorem activity?_perform (ht : r.Tied) (hlt : run < r.nextRun) (op : Op) :
    (r.perform now op).activity? run = r.activity? run := by
  rcases kin_perform now run ht.unused op with ⟨f, hf, h⟩ | ⟨t, -, -, hn⟩
  · unfold activity?
    rw [h, Option.map_map]
    cases r.run? run with
    | none => rfl
    | some x => exact congrArg some (hf x).activity
  · exact absurd hn.1 (Nat.ne_of_lt hlt)

end Runner

namespace World

open Runner (Op)

/-- A run is suspended in a call to the notifier, outside of the rounds of alerts. -/
def Awaits (w : World) (run : RunId) (v : Awaited) : Prop :=
  ∃ a, w.runner.activity? run = some a ∧ a.awaits? = some v

/-- What has become of a run that awaited `o` when it was stopped. -/
structure Follows (w₁ : World) (run : RunId) (o : Option Awaited) (w : World) : Prop where
  fit : w.Fit
  given : run < w.runner.nextRun
  stopped : w.runner.IsStopped run
  leads : ∀ v, w.Awaits run v → ∃ v₁, o = some v₁ ∧ v₁.Leads v
  /-- It awaits nothing only at the instant of the stop, or at the one at which it awaited a call. -/
  free : ∀ a, w.runner.activity? run = some a → a.awaits? = none →
    o = none ∧ w.now = w₁.now ∨ ∃ w₂ v, Ticks w₁ w₂ ∧ w₂.now = w.now ∧ w₂.Awaits run v
  held : ∀ v, o = some v → ¬ v.IsOver w.now → w.Awaits run v

variable {w₁ w w' : World} {run : RunId} {o : Option Awaited}

/-- A step that leaves the run and the clock as they are. -/
theorem Follows.of_same (h : Follows w₁ run o w) (hfit : w'.Fit) (hlt : run < w'.runner.nextRun)
    (hst : w'.runner.IsStopped run) (hnow : w'.now = w.now)
    (hact : w'.runner.activity? run = w.runner.activity? run) : Follows w₁ run o w' := by
  have hawaits (v : Awaited) : w'.Awaits run v ↔ w.Awaits run v := by
    unfold Awaits; rw [hact]
  refine ⟨hfit, hlt, hst, fun v hv => h.leads v ((hawaits v).1 hv), fun a ha hn => ?_, fun v hv ho => ?_⟩
  · rw [hnow]
    exact h.free a (hact ▸ ha) hn
  · rw [hnow] at ho
    exact (hawaits v).2 (h.held v hv ho)

/-- A poll of the run itself. -/
theorem Follows.poll (h : Follows w₁ run o w) (hticks : Ticks w₁ w) {events : List Event}
    {steps : List StepTimer.Step} {r : Runner} (hp : w.runner.Poll run w.now events steps r) :
    Follows w₁ run o { w with runner := r } := by
  have hwake (a : Activity) : (w.runner.wake run).activity? run = some a ↔
      ∃ b, w.runner.activity? run = some b ∧ b.wake = a := by
    unfold Runner.activity?
    rw [Runner.run?_wake, if_pos rfl, Option.map_map, Option.map_eq_some_iff]
    simp only [Option.map_eq_some_iff]
    constructor
    · rintro ⟨x, hx, rfl⟩; exact ⟨_, ⟨x, hx, rfl⟩, rfl⟩
    · rintro ⟨_, ⟨x, hx, rfl⟩, rfl⟩; exact ⟨x, hx, rfl⟩
  obtain ⟨hst, -, -, hrest⟩ := hp.winds (h.stopped.wake run)
  -- what the run awaits after the poll, it awaited before, or was led to
  have hfollow (a : Activity) (ha : r.activity? run = some a) :
      ∃ b, w.runner.activity? run = some b ∧ Follow w.now b.awaits? a.awaits? := by
    obtain ⟨x', hx', rfl⟩ := Runner.activity?_eq_some.1 ha
    obtain ⟨x, hx, hf, -⟩ := hrest x' hx'
    obtain ⟨b, hb, hba⟩ := (hwake x.activity).1 (Runner.activity?_eq_some.2 ⟨x, hx, rfl⟩)
    rw [← hba, Activity.awaits?_wake] at hf
    exact ⟨b, hb, hf⟩
  constructor
  case fit => exact h.fit.tick (.poll run hp)
  case given =>
    exact Runner.Moves.induction (P := fun r => run < r.nextRun)
      (fun r r' _ _ hlt ha => by rw [Runner.nextRun_advance r w.now run ha]; exact hlt) hp h.given
  case stopped => exact hst
  case leads =>
    rintro v ⟨a, ha, hv⟩
    obtain ⟨b, hb, hf⟩ := hfollow a ha
    rw [hv] at hf
    generalize hob : b.awaits? = ob at hf
    cases hf with
    | same => exact h.leads v ⟨b, hb, hob⟩
    | @moved u _ hu hlead =>
      obtain ⟨hgr, hgrace, hshow⟩ := hlead v rfl
      obtain ⟨v₁, hv₁, hl⟩ := h.leads u ⟨b, hb, hob⟩
      refine ⟨v₁, hv₁, Or.inr ?_⟩
      rcases hl with rfl | ⟨-, hno, -⟩
      · exact ⟨hgr, hshow.last, hgrace⟩
      · rw [hgr] at hno; cases hno
  case free =>
    intro a ha hn
    obtain ⟨b, hb, hf⟩ := hfollow a ha
    rw [hn] at hf
    generalize hob : b.awaits? = ob at hf
    cases hf with
    | same => exact h.free b hb hob
    | @moved u _ hu _ => exact Or.inr ⟨w, u, hticks, rfl, b, hb, hob⟩
  case held =>
    intro v hv ho
    obtain ⟨b, hb, hbv⟩ := h.held v hv ho
    have hb' := (hwake b.wake).2 ⟨b, hb, rfl⟩
    have hbv' : b.wake.awaits? = some v := by rw [Activity.awaits?_wake]; exact hbv
    cases hp with
    | rest => exact ⟨b.wake, hb', hbv'⟩
    | move coin ha _ =>
      -- the run has not moved: it would have to be done, or its call over
      obtain ⟨x, hx, hcase⟩ := Runner.run?_advance_self ha
      have hxb : x.activity = b.wake := by
        have hxa := Runner.activity?_eq_some.2 ⟨x, hx, rfl⟩
        rw [hb'] at hxa
        exact (Option.some.inj hxa).symm
      rcases hcase with ⟨hd, -⟩ | ⟨m, hm, -⟩
      · rw [hxb, Activity.isDone_of_awaits hbv'] at hd; cases hd
      · rw [hxb] at hm
        exact absurd (Activity.isOver_of_advance hm hbv') ho

/-- A poll of another run. -/
theorem Follows.poll_other (h : Follows w₁ run o w) {run' : RunId} (hne : run ≠ run') {events : List Event}
    {steps : List StepTimer.Step} {r : Runner} (hp : w.runner.Poll run' w.now events steps r) :
    Follows w₁ run o { w with runner := r } := by
  obtain ⟨hlt, hst, hact⟩ := Runner.Moves.induction
    (P := fun r => run < r.nextRun ∧ r.IsStopped run ∧ r.run? run = w.runner.run? run)
    (fun r r' _ _ hr ha => ⟨by rw [Runner.nextRun_advance r w.now run' ha]; exact hr.1, hr.2.1.advance_other hne ha,
      by rw [Runner.run?_advance_ne r w.now run' ha hne]; exact hr.2.2⟩) hp
    ⟨h.given, h.stopped.wake run', by rw [Runner.run?_wake, if_neg hne]⟩
  exact h.of_same (h.fit.tick (.poll run' hp)) hlt hst rfl (congrArg _ hact)

theorem Follows.tick (h : Follows w₁ run o w) (hticks : Ticks w₁ w) (ht : Tick w w') : Follows w₁ run o w' := by
  have hfit := h.fit.tick ht
  cases ht with
  | call op =>
    exact h.of_same hfit (Nat.lt_of_lt_of_le h.given (Runner.nextRun_le_perform w.runner w.now op))
      (h.stopped.perform h.fit.tied h.given w.now op) rfl (Runner.activity?_perform h.fit.tied h.given op)
  | poll run' hp =>
    by_cases hne : run = run'
    · subst hne; exact h.poll hticks hp
    · exact h.poll_other hne hp
  | dismiss => exact h.of_same hfit h.given h.stopped rfl rfl
  | pass t hle hidle halarms =>
    refine ⟨hfit, h.given, h.stopped, h.leads, fun a ha hn => ?_, fun v hv ho => ?_⟩
    · -- the clock does not move on while the run is held by nothing
      obtain ⟨x, hx, rfl⟩ := Runner.activity?_eq_some.1 ha
      refine absurd hidle (h.stopped.goes hx fun v hv => ?_).1
      rw [hn] at hv; cases hv
    · exact h.held v hv fun hover => ho (hover.mono hle)

theorem Follows.ticks (h : Follows w₁ run o w₁) (ht : Ticks w₁ w) : Follows w₁ run o w := by
  induction ht with
  | refl => exact h
  | tail hticks hs ih => exact ih.tick hticks hs

/-- A run that awaits a call is held by that call, whatever it awaited when it was stopped. -/
theorem Follows.anew (h : Follows w₁ run o w) {v : Awaited} (hv : w.Awaits run v) : Follows w run (some v) w := by
  obtain ⟨a, ha, hav⟩ := hv
  refine ⟨h.fit, h.given, h.stopped, fun v' hv' => ?_, fun a' ha' hn => ?_, fun v' hv' _ => ?_⟩
  · obtain ⟨a', ha', hav'⟩ := hv'
    cases ha.symm.trans ha'
    rw [hav] at hav'
    exact ⟨v, rfl, .inl (Option.some.inj hav').symm⟩
  · cases ha.symm.trans ha'
    rw [hav] at hn
    cases hn
  · cases hv'
    exact ⟨a, ha, hav⟩

/-- A stopped run comes to its end at this instant, or to a call that is not over. -/
theorem Follows.settles (h : Follows w₁ run o w) (hticks : Ticks w₁ w) :
    ∃ w', Ticks w w' ∧ w'.now = w.now ∧
      (w'.runner.activity? run = none ∨ ∃ v, w'.Awaits run v ∧ ¬ v.IsOver w'.now) := by
  generalize hn : ((w.runner.activity? run).map Activity.span).getD 0 = n
  induction n using Nat.strongRecOn generalizing w with
  | _ n ih =>
    cases ha : w.runner.activity? run with
    | none => exact ⟨w, .refl, rfl, Or.inl ha⟩
    | some a =>
      obtain ⟨x, hx, rfl⟩ := Runner.activity?_eq_some.1 ha
      by_cases hover : ∀ v, x.activity.awaits? = some v → v.IsOver w.now
      · obtain ⟨events, steps, r, hp⟩ := Runner.exists_moves w.now (h.stopped.wake run)
        have htick : Tick w { w with runner := r } := .poll run hp
        have h' := h.tick hticks htick
        cases hr : r.activity? run with
        | none => exact ⟨_, .single htick, rfl, Or.inl hr⟩
        | some a' =>
          obtain ⟨x', hx', rfl⟩ := Runner.activity?_eq_some.1 hr
          have hlt := (h.stopped.goes hx hover).2 events steps r hp x' hx'
          obtain ⟨w', hw', hnow, hend⟩ := ih _ (by rw [← hn, ha]; exact hlt) h' (hticks.tail htick) (by
            show ((r.activity? run).map Activity.span).getD 0 = _; rw [hr]; rfl)
          exact ⟨w', Relation.ReflTransGen.head htick hw', hnow, hend⟩
      · obtain ⟨v, hv⟩ := Classical.not_forall.1 hover
        obtain ⟨hv, hno⟩ := Classical.not_imp.1 hv
        exact ⟨w, .refl, rfl, Or.inr ⟨v, ⟨x.activity, ha, hv⟩, hno⟩⟩

/-- The stop itself: the run is aborted and its sound is cut. -/
theorem follows_stop (hw : w.Fit) {id : TimerId} {x : Run} (hx : w.runner.run? x.id = some x)
    (ht : w.runner.token? id = some x.id) :
    Follows (w.perform (.stop id)) x.id x.activity.awaits? (w.perform (.stop id)) := by
  have hact : (w.perform (.stop id)).runner.activity? x.id = some x.activity := by
    show (w.runner.perform w.now (.stop id)).activity? x.id = _
    rw [Runner.activity?_perform hw.tied (hw.tied.lt_nextRun hx)]
    unfold Runner.activity?
    rw [hx]; rfl
  constructor
  case fit => exact hw.tick (.call (.stop id))
  case given =>
    show x.id < (w.runner.stop id w.now).nextRun
    rw [Runner.nextRun_stop]
    exact hw.tied.lt_nextRun hx
  case stopped =>
    intro y hy
    have hy : (w.runner.stop id w.now).run? x.id = some y := hy
    rw [Runner.run?_stop, if_pos ht, hx] at hy
    cases hy
    refine ⟨rfl, hw.guarded _ x hx, fun call hc => ?_⟩
    show (w.runner.stop id w.now).devices.channel.isCut call.number = true
    rw [Runner.channel_stop, ht]
    exact ((hw.fit _ x hx).holds call hc).isCut_stopOwnedBy
  case leads =>
    rintro v ⟨a, ha, hv⟩
    rw [hact] at ha; cases ha
    exact ⟨v, hv, Or.inl rfl⟩
  case free =>
    intro a ha hn
    rw [hact] at ha; cases ha
    exact Or.inl ⟨hn, rfl⟩
  case held =>
    exact fun v hv _ => ⟨_, hact, hv⟩

/-! ## Stops -/

/-- What holds of a run, as it was when it was stopped, in a world that follows the stop. -/
structure WindsUp (w₁ : World) (x : Run) (w : World) : Prop where
  /-- No poll of the run makes a step active or starts a sound. -/
  quiet : ∀ events steps r, w.runner.Poll x.id w.now events steps r → steps = [] ∧ ∀ url, .play url ∉ events
  /-- If it was in no call to the notifier, the clock has not moved on while the run is in the table. -/
  prompt : x.activity.awaits? = none → w.runner.run? x.id ≠ none → w.now = w₁.now
  /-- If it was in a call, it is in the table until that call has returned or its grace is over. -/
  held : ∀ v, x.activity.awaits? = some v → ¬ v.IsOver w.now → w.runner.run? x.id ≠ none
  /-- And so until the call that this one has led it to has returned, or the grace is over. -/
  led : ∀ w₂ v, Ticks w₁ w₂ → Ticks w₂ w → w₂.Awaits x.id v → ¬ v.IsOver w.now → w.runner.run? x.id ≠ none
  /-- And while it is in the table, it has been, at this very instant, in a call that had not returned
  before: the one it was stopped in, or the one that followed on the permission. -/
  returns : ∀ v, x.activity.awaits? = some v → w.runner.run? x.id ≠ none →
    ∃ w₂ v₂, Ticks w₁ w₂ ∧ w₂.now = w.now ∧ w₂.Awaits x.id v₂ ∧ v.Leads v₂ ∧
      ∀ t, v₂.phase.due = some t → w.now.nanos ≤ t.nanos
  /-- The grace of a plain notification is over two seconds after the stop at the latest. -/
  grace : ∀ v t, x.activity.awaits? = some v → v.grace = some t → w.runner.run? x.id ≠ none →
    w.now.nanos ≤ t.nanos ∧ t.nanos ≤ (w₁.now.plusMillis 2000).nanos
  /-- Unless it is in a call that is not over, it can go on, and each poll leaves less of it. -/
  goes : ∀ y, w.runner.run? x.id = some y → (∀ v, y.activity.awaits? = some v → v.IsOver w.now) →
    ¬ w.runner.Idle w.now ∧ ∀ events steps r, w.runner.Poll x.id w.now events steps r →
      ∀ y', r.run? x.id = some y' → y'.activity.span < y.activity.span
  /-- So it leaves the table at this instant, or comes to such a call that is not over. -/
  settles : ∃ w', Ticks w w' ∧ w'.now = w.now ∧ (w'.runner.run? x.id = none ∨
    ∃ v v', x.activity.awaits? = some v ∧ v.Leads v' ∧ w'.Awaits x.id v' ∧ ¬ v'.IsOver w'.now)

theorem Follows.windsUp {x : Run} (h₁ : Follows w₁ x.id x.activity.awaits? w₁) (hheld : ∀ v,
    x.activity.awaits? = some v → w₁.Awaits x.id v) (ht : Ticks w₁ w) : WindsUp w₁ x w := by
  have h := h₁.ticks ht
  have hactive (hin : w.runner.run? x.id ≠ none) : ∃ a, w.runner.activity? x.id = some a := by
    obtain ⟨y, hy⟩ := Option.ne_none_iff_exists'.1 hin
    exact ⟨_, Runner.activity?_eq_some.2 ⟨y, hy, rfl⟩⟩
  have inTable {w₂ : World} {o : Option Awaited} {v : Awaited} (hf : Follows w₂ x.id o w) (hv : o = some v)
      (ho : ¬ v.IsOver w.now) : w.runner.run? x.id ≠ none := by
    obtain ⟨a, ha, -⟩ := hf.held v hv ho
    obtain ⟨y, hy, -⟩ := Runner.activity?_eq_some.1 ha
    rw [hy]; exact Option.some_ne_none y
  -- a call that is awaited at an instant has not returned before
  have hopen (w₂ : World) (v : Awaited) (ht₂ : Ticks w₁ w₂) (hv : w₂.Awaits x.id v) (t : Instant) :
      (v.phase.due = some t → w₂.now.nanos ≤ t.nanos) ∧
        (v.grace = some t → w₂.now.nanos ≤ t.nanos ∧ t.nanos ≤ (w₂.now.plusMillis 2000).nanos) := by
    obtain ⟨a, ha, hv⟩ := hv
    obtain ⟨y, hy, rfl⟩ := Runner.activity?_eq_some.1 ha
    have hfit := (h₁.ticks ht₂).fit.fit _ y hy
    exact ⟨hfit.due v t hv, hfit.grace v t hv⟩
  have hlast (v : Awaited) (hv : x.activity.awaits? = some v) (hin : w.runner.run? x.id ≠ none) :
      ∃ w₂ v₂, Ticks w₁ w₂ ∧ w₂.now = w.now ∧ w₂.Awaits x.id v₂ ∧ v.Leads v₂ := by
    have hleads (w₂ : World) (v₂ : Awaited) (ht₂ : Ticks w₁ w₂) (hv₂ : w₂.Awaits x.id v₂) : v.Leads v₂ := by
      obtain ⟨v₁, hv₁, hl⟩ := (h₁.ticks ht₂).leads v₂ hv₂
      rw [hv] at hv₁; cases hv₁
      exact hl
    obtain ⟨a, ha⟩ := hactive hin
    cases hw : a.awaits? with
    | some v₂ => exact ⟨w, v₂, ht, rfl, ⟨a, ha, hw⟩, hleads w v₂ ht ⟨a, ha, hw⟩⟩
    | none =>
      rcases h.free a ha hw with ⟨hno, -⟩ | ⟨w₂, v₂, ht₂, hnow, hv₂⟩
      · rw [hv] at hno; cases hno
      · exact ⟨w₂, v₂, ht₂, hnow, hv₂, hleads w₂ v₂ ht₂ hv₂⟩
  constructor
  case quiet =>
    intro events steps r hp
    obtain ⟨-, hsteps, hquiet, -⟩ := hp.winds (h.stopped.wake x.id)
    exact ⟨hsteps, hquiet⟩
  case prompt =>
    intro hnone hin
    obtain ⟨a, ha⟩ := hactive hin
    -- a run that was stopped in no call is in none later
    have hno (w₂ : World) (v : Awaited) (ht₂ : Ticks w₁ w₂) (hv : w₂.Awaits x.id v) : False := by
      obtain ⟨v₁, hv₁, -⟩ := (h₁.ticks ht₂).leads v hv
      rw [hnone] at hv₁; cases hv₁
    cases hw : a.awaits? with
    | some v => exact (hno w v ht ⟨a, ha, hw⟩).elim
    | none =>
      rcases h.free a ha hw with ⟨-, hnow⟩ | ⟨w₂, v, ht₂, -, hv⟩
      · exact hnow
      · exact (hno w₂ v ht₂ hv).elim
  case held => exact fun v hv ho => inTable h hv ho
  case led => exact fun w₂ v ht₂ ht' hv ho => inTable (((h₁.ticks ht₂).anew hv).ticks ht') rfl ho
  case returns =>
    intro v hv hin
    obtain ⟨w₂, v₂, ht₂, hnow, hv₂, hl⟩ := hlast v hv hin
    exact ⟨w₂, v₂, ht₂, hnow, hv₂, hl, fun t hd => hnow ▸ (hopen w₂ v₂ ht₂ hv₂ t).1 hd⟩
  case grace =>
    intro v t hv hg hin
    constructor
    · obtain ⟨w₂, v₂, ht₂, hnow, hv₂, hl⟩ := hlast v hv hin
      exact hnow ▸ ((hopen w₂ v₂ ht₂ hv₂ t).2 (hl.grace_eq.trans hg)).1
    · exact ((hopen w₁ v .refl (hheld v hv) t).2 hg).2
  case goes => exact fun y hy hover => h.stopped.goes hy hover
  case settles =>
    obtain ⟨w', ht', hnow, hn | ⟨v', hv', ho⟩⟩ := h.settles ht
    · exact ⟨w', ht', hnow, Or.inl (Option.map_eq_none_iff.1 hn)⟩
    · obtain ⟨v, hv, hl⟩ := (h₁.ticks (ht.trans ht')).leads v' hv'
      exact ⟨w', ht', hnow, Or.inr ⟨v, v', hv, hl, hv', ho⟩⟩

/-- A stop is final and prompt. When the timer of an active run is stopped, on the virtual clock and
after any history, then in every world that follows the run plays no sound and enters no step; it is
gone before the clock moves on, whatever blocks it is in and whether it is paused or not, unless it
was suspended in a call to the notifier outside of the rounds of alerts. Then it is gone before the
clock moves on from the instant at which the call returns, or at which the call for showing returns
that a granted permission leads to, and for a plain notification from the end of its grace. -/
theorem stop_windsUp (hw : w.Ticked) {id : TimerId} {e : RunEntry} {run : RunId}
    (he : w.runner.entry? id = some e) (ht : e.token = some run) :
    ∃ x, x.id = run ∧ w.runner.run? run = some x ∧ x.signals.aborted = false ∧
      ∀ w', Ticks (w.perform (.stop id)) w' → WindsUp (w.perform (.stop id)) x w' := by
  have hfit := hw.fit
  have htok : w.runner.token? id = some run := w.runner.token?_of_entry? he ht
  obtain ⟨x, hx, hlive, -⟩ := hfit.tied.run_of_token htok
  have hid := Runner.id_of_run? w.runner hx
  subst hid
  have h₁ := follows_stop hfit hx htok
  refine ⟨x, rfl, hx, hlive, fun w' ht' => h₁.windsUp (fun v hv => ?_) ht'⟩
  have hact : (w.perform (.stop id)).runner.activity? x.id = w.runner.activity? x.id :=
    Runner.activity?_perform hfit.tied (hfit.tied.lt_nextRun hx) (.stop id)
  exact ⟨x.activity, hact.trans (Runner.activity?_eq_some.2 ⟨x, hx, rfl⟩), hv⟩

/-- A timer that repeats a sound without end. -/
def siren : Timer :=
  { id := "siren", name := "Siren", steps := [.block "again" (.loop .infinite) [.leaf "wail" (.playSound {})]] }

/-- The timer was started and its sound is playing. -/
def sirenPlaying : World :=
  let w := (initial ⟨fun _ _ => .endless, .off, "", fun _ => ⟨0⟩⟩ ⟨0⟩).perform (.start siren)
  let move (r : Runner) : Runner := (r.advance 1 true w.now).elim r (·.1)
  { w with runner := move (move (move (move (move (move (move (w.runner.wake 1))))))) }

theorem stop_windsUp_siren :
    ∃ x, sirenPlaying.runner.run? 1 = some x ∧ x.activity.call?.isSome ∧ x.activity.awaits? = none ∧
      ∀ w', Ticks (sirenPlaying.perform (.stop "siren")) w' →
        WindsUp (sirenPlaying.perform (.stop "siren")) x w' := by
  have hw : sirenPlaying.Ticked := by
    refine ⟨_, _, .tail (.single (.call (.start siren))) (.poll 1 (.move true rfl (.move true rfl (.move true rfl
      (.move true rfl (.move true rfl (.move true rfl (.move true rfl (.rest ?_)))))))))⟩
    intro coin
    cases coin <;> rfl
  have he : sirenPlaying.runner.entry? "siren" = some _ := rfl
  obtain ⟨x, -, hx, -, hwinds⟩ := stop_windsUp hw he rfl
  have hx' : sirenPlaying.runner.run? 1 = some _ := rfl
  cases hx.symm.trans hx'
  exact ⟨_, hx, rfl, rfl, hwinds⟩

/-- A timer that rings at the door. -/
def doorbell : Timer := { id := "door", name := "Door", steps := [.block "ring" (.notifyUntil { title := "Door" }) []] }

/-- A screen on which permission is granted after 100 milliseconds, and a notification is up after another 500. -/
def slowScreen : Notifier := ⟨fun _ => ⟨.granted, some 100⟩, fun _ => { delayMs := some 500 }⟩

/-- It has asked for permission. -/
def doorAsked : World :=
  ((initial ⟨fun _ _ => .endless, slowScreen, "", fun _ => ⟨0⟩⟩ ⟨0⟩).perform (.start doorbell)).turned 1 8

/-- It was stopped then, and the permission has come. -/
def doorGranted : World := ((doorAsked.perform (.stop "door")).passed 100).turned 1 8

theorem ticked_doorAsked : doorAsked.Ticked :=
  ⟨_, _, .tail (.single (.call (.start doorbell))) (tick_turned (by decide +kernel))⟩

theorem ticks_doorGranted : Ticks (doorAsked.perform (.stop "door")) doorGranted := by
  have granted : Beat (fun _ => True) (doorAsked.perform (.stop "door"))
      ((doorAsked.perform (.stop "door")).passed 100) :=
    beat_passed (by decide +kernel) (by decide +kernel)
  exact .tail (.single granted.tick) (tick_turned (by decide +kernel))

/-- A run that is stopped while it asks for permission is not gone at the instant at which that call returns: no
one looks at the stop before the notification for which permission was granted is shown. The run is there until it
is up, half a second later. -/
theorem shown_after_stop :
    (¬ ∀ w, Ticked w → ∀ id e run x v, w.runner.entry? id = some e → e.token = some run →
      w.runner.run? run = some x → x.activity.awaits? = some v → v.grace = none →
        ∀ w', Ticks (w.perform (.stop id)) w' → w'.runner.run? run ≠ none →
          ∀ t, v.phase.due = some t → w'.now.nanos ≤ t.nanos) ∧
    Ticks (doorAsked.perform (.stop "door")) (doorGranted.passed 500) ∧
      ((doorGranted.passed 500).runner.run? 1).isSome ∧ ((doorGranted.passed 500).turned 1 8).runner.run? 1 = none ∧
        ((doorGranted.passed 500).turned 1 8).runner.devices.board.shown = 1 := by
  have later : Ticks (doorAsked.perform (.stop "door")) (doorGranted.passed 500) := by
    have shown : Beat (fun _ => True) doorGranted (doorGranted.passed 500) :=
      beat_passed (by decide +kernel) (by decide +kernel)
    exact ticks_doorGranted.tail shown.tick
  have here : ((doorGranted.passed 500).runner.run? 1).isSome := by decide +kernel
  refine ⟨fun all => ?_, later, here, by decide +kernel, by decide +kernel⟩
  have entry : doorAsked.runner.entry? "door" = some _ := rfl
  have run : doorAsked.runner.run? 1 = some _ := rfl
  have asking := all doorAsked ticked_doorAsked "door" _ 1 _ _ entry rfl run rfl rfl _ later
    (Option.isSome_iff_ne_none.1 here) _ rfl
  exact absurd asking (by decide +kernel)

end World

end StepTimer
