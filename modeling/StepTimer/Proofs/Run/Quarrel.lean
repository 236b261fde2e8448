/-
Quarrels for the channel. A run whose sound is cut off by another run may start its next one at the same
instant and cut off the other in turn. Where only one of the runs could keep this up (`World.IsEndless`), it
ends: every sound of another run is paid for out of the sounds which that run has left, and lets the one run
start at most one more (`tension`). Two runs that can both keep it up never let the time go on.
-/
import Mathlib.Algebra.Order.BigOperators.Group.Finset
import Mathlib.Data.ENat.BigOperators
import Mathlib.Tactic.GCongr
import Mathlib.Tactic.Ring
import StepTimer.Proofs.Engine.Endless
import StepTimer.Proofs.Engine.Overdue
import StepTimer.Proofs.Run.Isolation

namespace StepTimer

namespace Runner

/-- The sounds that a run may start at a moment if each is cut off at once. -/
def shots (r : Runner) (k : Moment) (run : RunId) : ℕ∞ := (r.run? run).elim 0 fun x => x.activity.shots k x.signals

/-- The sounds that a run may start at a moment as long as its sounds are not cut off. -/
def stake (r : Runner) (k : Moment) (run : RunId) : Nat :=
  (r.run? run).elim 1 fun x => x.activity.stake k r.devices.channel

/-- The sounds that the other runs may start at a moment if each is cut off at once. -/
def rivals (r : Runner) (k : Moment) (run : RunId) : ℕ∞ :=
  ∑ other ∈ (Finset.range r.nextRun).erase run, r.shots k other

/-- The sounds that may be started at a moment by the others and by a run itself: each sound of another
counts twice, as it may cut off one of the run. -/
def tension (r : Runner) (k : Moment) (run : RunId) : ℕ∞ := r.rivals k run + r.rivals k run + r.stake k run

variable {r r' : Runner} {now : Instant} {run : RunId} {coin : Bool} {events : List Event}

/-! ## Moves -/

/-- At an instant nothing is dismissed, and notifications are only put up. -/
theorem board_advance (ha : r.advance run coin now = some (r', events)) :
    r'.devices.board.dismissed = r.devices.board.dismissed ∧ r.devices.board.shown ≤ r'.devices.board.shown := by
  obtain ⟨x, -, ⟨-, -, hd, -⟩ | ⟨m, hm, -, hd, -⟩⟩ := run?_advance_self ha <;> rw [hd]
  · exact ⟨rfl, Nat.le_refl _⟩
  · have hposts := Activity.notices_advance hm
    exact ⟨hposts.dismissed, hposts.shown⟩

theorem shots_advance (hshown : ∀ n ∈ r.devices.board.dismissed, n < r.devices.board.shown)
    (ha : r.advance run coin now = some (r', events)) :
    r'.shots (r.devices.moment now) run + r'.devices.channel.nextCall ≤
      r.shots (r.devices.moment now) run + r.devices.channel.nextCall := by
  obtain ⟨x, hx, ⟨-, hgone, hd, -⟩ | ⟨m, hm, hnext, hd, -⟩⟩ := run?_advance_self ha
  · rw [shots, hgone, hd]
    exact add_le_add zero_le (le_refl _)
  · rw [shots, shots, hx, hnext, hd]
    exact Activity.shots_advance (c := r.circumstances x now coin) hshown hm

theorem shots_advance_ne {other : RunId} (k : Moment) (ha : r.advance run coin now = some (r', events))
    (hne : other ≠ run) : r'.shots k other = r.shots k other := by
  rw [shots, shots, run?_advance_ne r now run ha hne]

theorem stake_advance (h : r.Apart) (hplayer : ∀ n url, (r.equipment.player n url).takesTime = true)
    (hgo : ∀ x, r.run? run = some x → x.signals.aborted = false)
    (ha : r.advance run coin now = some (r', events)) :
    r'.stake (r.devices.moment now) run + r'.devices.channel.nextCall ≤
      r.stake (r.devices.moment now) run + r.devices.channel.nextCall := by
  obtain ⟨x, hx, ⟨hdone, hgone, hd, -⟩ | ⟨m, hm, hnext, hd, -⟩⟩ := run?_advance_self ha
  · have hone : x.activity.stake (r.devices.moment now) r.devices.channel = 1 := by
      rw [Activity.stake, Activity.overdue_of_isDone hdone, Activity.call?_of_isDone hdone]
      rfl
    rw [stake, stake, hx, hgone, hd]
    exact Nat.add_le_add_right (Nat.le_of_eq hone.symm) _
  · rw [stake, stake, hx, hnext, hd]
    exact Activity.stake_advance (c := r.circumstances x now coin) (hgo x hx) hplayer h.numbered hm

/-- A run gets to start one sound more for a sound of another run, which may have cut it off. -/
theorem stake_advance_ne (h : r.Apart) {other : RunId} (ha : r.advance run coin now = some (r', events))
    (hne : other ≠ run) :
    r'.stake (r.devices.moment now) other + r.devices.channel.nextCall ≤
      r.stake (r.devices.moment now) other + r'.devices.channel.nextCall := by
  obtain ⟨x, hx, hcase⟩ := run?_advance_self ha
  rw [stake, stake, run?_advance_ne r now run ha hne]
  rcases hcase with ⟨-, -, hd, -⟩ | ⟨m, hm, -, hd, -⟩ <;> rw [hd]
  have hid := id_of_run? r hx
  have hself := h.holds run x hx
  rw [← hid] at hself hne
  have hother : ∀ k₀, (∀ call, k₀ = some call → r.devices.channel.Holds other call.number) →
      m.devices.channel.unheard now k₀ + r.devices.channel.nextCall ≤
        r.devices.channel.unheard now k₀ + m.devices.channel.nextCall := fun k₀ hk₀ =>
    (Activity.advance_call hm).unheard_other h.numbered hself hne hk₀
  cases hy : r.run? other with
  | none => exact hother none fun call hcall => by cases hcall
  | some y =>
    have hle := hother y.activity.call? (h.holds other y hy)
    simp only [Option.elim_some, Activity.stake, Devices.moment_now]
    omega

/-- What one run loses counts twice, and pays for the sound that it starts and for the one that it may
have cut off. -/
theorem tension_le_of_paid {lost lost' rest : ℕ∞} {own own' calls calls' : Nat} (hlost : lost' + calls' ≤ lost + calls)
    (hown : own' + calls ≤ own + calls') :
    lost' + rest + (lost' + rest) + own' + calls' ≤ lost + rest + (lost + rest) + own + calls := by
  cases lost with
  | top => simp
  | coe n =>
    obtain ⟨n', rfl⟩ : ∃ n' : Nat, lost' = n' := by
      have hle : lost' ≤ (n + calls : Nat) := le_self_add.trans (by exact_mod_cast hlost)
      obtain ⟨n', hn'⟩ := ENat.ne_top_iff_exists.1 (ne_top_of_le_ne_top (ENat.natCast_ne_top _) hle)
      exact ⟨n', hn'.symm⟩
    have hpaid : n' + calls' ≤ n + calls := by exact_mod_cast hlost
    have hle : ((2 * n' + own' + calls' : Nat) : ℕ∞) ≤ (2 * n + own + calls : Nat) := by
      exact_mod_cast (by omega : 2 * n' + own' + calls' ≤ 2 * n + own + calls)
    calc (n' : ℕ∞) + rest + (n' + rest) + own' + calls'
        = 2 * rest + (2 * n' + own' + calls' : Nat) := by push_cast; ring
      _ ≤ 2 * rest + (2 * n + own + calls : Nat) := by gcongr
      _ = n + rest + (n + rest) + own + calls := by push_cast; ring

theorem rivals_advance_self (k : Moment) (ha : r.advance run coin now = some (r', events)) :
    r'.rivals k run = r.rivals k run := by
  rw [rivals, rivals, nextRun_advance r now run ha]
  exact Finset.sum_congr rfl fun other hother => shots_advance_ne k ha (Finset.ne_of_mem_erase hother)

/-- By a move of a rival the others are left as they are. -/
theorem rivals_advance_ne (ht : r.Tied) (k : Moment) (ha : r.advance run coin now = some (r', events)) {one : RunId}
    (hne : run ≠ one) : ∃ rest, r.rivals k one = r.shots k run + rest ∧ r'.rivals k one = r'.shots k run + rest := by
  obtain ⟨x, hx, -⟩ := run?_advance_self ha
  have hmem : run ∈ (Finset.range r.nextRun).erase one :=
    Finset.mem_erase.2 ⟨hne, Finset.mem_range.2 (ht.lt_nextRun hx)⟩
  have hsum : ∑ other ∈ ((Finset.range r.nextRun).erase one).erase run, r'.shots k other =
      ∑ other ∈ ((Finset.range r.nextRun).erase one).erase run, r.shots k other :=
    Finset.sum_congr rfl fun other hother => shots_advance_ne k ha (Finset.ne_of_mem_erase hother)
  refine ⟨_, (Finset.add_sum_erase _ _ hmem).symm, ?_⟩
  rw [rivals, nextRun_advance r now run ha, ← hsum]
  exact (Finset.add_sum_erase _ _ hmem).symm

/-- No move makes up for the sounds that it starts. -/
theorem tension_advance (h : r.Apart) (ht : r.Tied)
    (hplayer : ∀ n url, (r.equipment.player n url).takesTime = true)
    (hshown : ∀ n ∈ r.devices.board.dismissed, n < r.devices.board.shown) {one : RunId}
    (hgo : ∀ x, r.run? one = some x → x.signals.aborted = false)
    (ha : r.advance run coin now = some (r', events)) :
    r'.tension (r.devices.moment now) one + r'.devices.channel.nextCall ≤
      r.tension (r.devices.moment now) one + r.devices.channel.nextCall := by
  unfold tension
  by_cases heq : run = one
  · -- the one run pays for its sounds itself, and leaves its rivals as they are
    subst heq
    have hstake := stake_advance h hplayer hgo ha
    rw [rivals_advance_self _ ha, add_assoc (_ + _), add_assoc (_ + _)]
    exact add_le_add (le_refl _) (by exact_mod_cast hstake)
  · -- a rival pays twice for its sound, which may let the one run start one more
    obtain ⟨rest, hbefore, hafter⟩ := rivals_advance_ne ht (r.devices.moment now) ha heq
    rw [hbefore, hafter]
    exact tension_le_of_paid (shots_advance hshown ha) (stake_advance_ne h ha (Ne.symm heq))

/-! ## Turns -/

theorem shots_wake_le (r : Runner) (k : Moment) (run other : RunId) : (r.wake run).shots k other ≤ r.shots k other := by
  unfold shots
  rw [run?_wake]
  split
  · rename_i heq
    subst heq
    cases r.run? other with
    | none => exact le_refl _
    | some x => exact x.activity.shots_wake_le k x.signals
  · exact le_refl _

theorem stake_wake (r : Runner) (k : Moment) (run other : RunId) : (r.wake run).stake k other = r.stake k other := by
  unfold stake
  rw [run?_wake]
  split
  · rename_i heq
    subst heq
    cases r.run? other with
    | none => rfl
    | some x => exact x.activity.stake_wake r.devices.channel
  · rfl

theorem tension_wake_le (r : Runner) (k : Moment) (run one : RunId) : (r.wake run).tension k one ≤ r.tension k one := by
  unfold tension
  rw [stake_wake]
  have hrivals : (r.wake run).rivals k one ≤ r.rivals k one :=
    Finset.sum_le_sum fun other _ => r.shots_wake_le k run other
  exact add_le_add (add_le_add hrivals hrivals) (le_refl _)

end Runner

namespace World

/-- A step of the runs while the time stands still: a move or a turn. -/
inductive Stir : World → World → Prop
  | move {w : World} (run : RunId) (coin : Bool) {r : Runner} {events : List Event}
      (h : w.runner.advance run coin w.now = some (r, events)) : Stir w { w with runner := r }
  | wake {w : World} (run : RunId) : Stir w { w with runner := w.runner.wake run }

/-- A world that the runs come to while the time stands still and nothing is asked of the table. -/
abbrev AtOnce : World → World → Prop := Relation.ReflTransGen Stir

theorem Stir.step {w w' : World} (h : Stir w w') : Step (fun _ => True) w w' := by
  cases h with
  | move run coin ha => exact .move run coin ha
  | wake run => exact .wake run

/-- A poll of a run while the time stands still. -/
def Turn (w w' : World) : Prop :=
  ∃ run events steps r, w.runner.Poll run w.now events steps r ∧ w' = { w with runner := r }

/-- A poll is a turn and some moves, so what the runs may come to at once they may also come to by polls. -/
theorem Turn.atOnce {w w' : World} (h : Turn w w') : AtOnce w w' := by
  obtain ⟨run, events, steps, r, hpoll, rfl⟩ := h
  have hmoves {r r' : Runner} {events : List Event} {steps : List StepTimer.Step}
      (hm : Runner.Moves run w.now r events steps r') : AtOnce { w with runner := r } { w with runner := r' } := by
    induction hm with
    | rest => exact .refl
    | move coin ha _ ih => exact .head (.move run coin ha) ih
  exact .head (.wake run) (hmoves hpoll)

/-- The moment of a world. -/
def moment (w : World) : Moment := w.runner.devices.moment w.now

/-- The number of the sounds that were started. -/
def sounds (w : World) : Nat := w.runner.devices.channel.nextCall

/-- The sounds that a run may start now if each is cut off at once. -/
def shots (w : World) (run : RunId) : ℕ∞ := w.runner.shots w.moment run

/-- What stands still while the runs quarrel, and what they have left at a moment. -/
structure Quarrels (k : Moment) (one : RunId) (left : ℕ∞) (w : World) : Prop where
  reached : Reached (fun _ => True) w
  player : ∀ n url, (w.runner.equipment.player n url).takesTime = true
  shown : ∀ n ∈ w.runner.devices.board.dismissed, n < w.runner.devices.board.shown
  going : ∀ x, w.runner.run? one = some x → x.signals.aborted = false
  moment : w.moment = k
  enough : w.runner.tension k one + w.sounds ≤ left

theorem Quarrels.stir {k : Moment} {one : RunId} {left : ℕ∞} {w w' : World} (h : w.Quarrels k one left)
    (hs : Stir w w') : w'.Quarrels k one left := by
  have hreached : Reached (fun _ => True) w' := by
    obtain ⟨equipment, now, hlater⟩ := h.reached
    exact ⟨equipment, now, hlater.tail hs.step⟩
  have hk := h.moment
  subst hk
  cases hs with
  | move run coin ha =>
    obtain ⟨hdismissed, hshown⟩ := Runner.board_advance ha
    refine ⟨hreached, ?_, fun n hn => ?_, fun x hx => ?_, ?_, ?_⟩
    · have hsame := Runner.equipment_advance _ _ _ ha
      intro n url
      rw [hsame]
      exact h.player n url
    · exact Nat.lt_of_lt_of_le (h.shown n (hdismissed ▸ hn)) hshown
    · by_cases hne : one = run
      · subst hne
        obtain ⟨y, hy, ⟨-, hgone, -⟩ | ⟨m, -, hnext, -⟩⟩ := Runner.run?_advance_self ha
        · rw [hgone] at hx
          cases hx
        · rw [hnext] at hx
          cases hx
          exact h.going y hy
      · rw [Runner.run?_advance_ne _ _ _ ha hne] at hx
        exact h.going x hx
    · show (⟨_, _⟩ : Moment) = ⟨_, _⟩
      rw [hdismissed]
    · exact (Runner.tension_advance h.reached.apart h.reached.tied h.player h.shown h.going ha).trans h.enough
  | wake run =>
    refine ⟨hreached, h.player, h.shown, fun x hx => ?_, rfl, ?_⟩
    · obtain ⟨y, hy, rfl | rfl⟩ := Runner.run_of_wake w.runner hx
      · exact h.going x hy
      · exact h.going y hy
    · exact (add_le_add (w.runner.tension_wake_le w.moment run one) (le_refl _)).trans h.enough

theorem Quarrels.atOnce {k : Moment} {one : RunId} {left : ℕ∞} {w w' : World} (h : w.Quarrels k one left)
    (hs : AtOnce w w') : w'.Quarrels k one left := by
  induction hs with
  | refl => exact h
  | tail _ hs ih => exact ih.stir hs

/-- A run that may go on starting sounds now without end, if each is cut off at once: it is neither aborted nor
paused, and it is in a loop or an alert that begins its next pass or round at once, or comes to one without having
to wait. -/
def IsEndless (w : World) (run : RunId) : Prop :=
  ∃ x, w.runner.run? run = some x ∧ x.signals.aborted = false ∧ x.signals.paused = false ∧
    x.activity.isEndless w.moment = true

theorem shots_eq_top {w : World} {run : RunId} : w.shots run = ⊤ ↔ w.IsEndless run := by
  rw [shots, Runner.shots, IsEndless]
  cases w.runner.run? run with
  | none => simp
  | some x =>
    simp only [Option.elim_some, Activity.shots, Option.some.injEq, exists_eq_left']
    split
    next held =>
      refine ⟨fun htop => ?_, fun h => ?_⟩
      · split at htop <;> cases htop
      · rw [h.1, h.2.1] at held
        cases held
    next held =>
      simp only [Bool.or_eq_true, not_or, Bool.not_eq_true] at held
      rw [Activity.volley_eq_top]
      exact ⟨fun h => ⟨held.1, held.2, h⟩, fun h => h.2.2⟩

/-- Where at most one of the runs could keep starting sounds at this instant with every one of them cut
off, the runs start only so many before the time goes on. -/
theorem sounds_bounded {w : World} (hw : Reached (fun _ => True) w)
    (hplayer : ∀ n url, (w.runner.equipment.player n url).takesTime = true)
    (hshown : ∀ n ∈ w.runner.devices.board.dismissed, n < w.runner.devices.board.shown)
    (hone : ∀ run run', w.IsEndless run → w.IsEndless run' → run = run') :
    ∃ bound, ∀ w', AtOnce w w' → w'.sounds ≤ w.sounds + bound := by
  -- the one run, or none
  obtain ⟨one, hgoing, hrest⟩ : ∃ one, (∀ x, w.runner.run? one = some x → x.signals.aborted = false) ∧
      ∀ other, other ≠ one → w.shots other ≠ ⊤ := by
    by_cases h : ∃ run, w.IsEndless run
    · obtain ⟨one, hendless⟩ := h
      refine ⟨one, fun x hx => ?_, fun other hne htop => hne (hone other one (shots_eq_top.1 htop) hendless)⟩
      obtain ⟨y, hy, hlive, -⟩ := hendless
      rw [hx] at hy; cases hy
      exact hlive
    · refine ⟨w.runner.nextRun, fun x hx => ?_, fun other _ htop => h ⟨other, shots_eq_top.1 htop⟩⟩
      rw [hw.tied.unused] at hx
      cases hx
  have hrivals : w.runner.rivals w.moment one < ⊤ :=
    WithTop.sum_lt_top.2 fun other hother => lt_top_iff_ne_top.2 (hrest other (Finset.ne_of_mem_erase hother))
  have hfinite : w.runner.tension w.moment one < ⊤ := by
    refine ENat.add_lt_top.2 ⟨ENat.add_lt_top.2 ⟨hrivals, hrivals⟩, ?_⟩
    exact lt_top_iff_ne_top.2 (ENat.natCast_ne_top _)
  obtain ⟨bound, hbound⟩ := ENat.ne_top_iff_exists.1 hfinite.ne
  refine ⟨bound, fun w' hs => ?_⟩
  have hstart : w.Quarrels w.moment one (w.sounds + bound) :=
    ⟨hw, hplayer, hshown, hgoing, rfl, by rw [hbound, add_comm]⟩
  have hle : (w'.sounds : ℕ∞) ≤ w.sounds + bound := le_add_self.trans (hstart.atOnce hs).enough
  exact_mod_cast hle

end World

end StepTimer
