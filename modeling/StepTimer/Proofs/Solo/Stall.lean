/-
A run that stays with what it is in, and that nothing disturbs. Each step of it is a move of what it is in, or
of a countdown around that, or its turn after it let others go first, or time that passes. As long as its
clock stands still these are only so many, unless it begins rounds of alerts that nothing paces; so when its
clock does not go beyond some instant, it begins such rounds for ever (`RingsOn`).
-/
import StepTimer.Proofs.Engine.Nested
import StepTimer.Proofs.Solo.Return
import StepTimer.Proofs.Solo.Timeout

namespace StepTimer

namespace Course

open Activity

variable {w w' : Course} {n : Nat} {b : Activity} {h : Hearing}

/-- What is given to a run that nothing disturbs stays so. -/
theorem Undisturbed.signals (hs : w.Undisturbed w') : w'.run.signals = w.run.signals := by
  cases hs with
  | disturb x hx => cases hx
  | move coin hm => rfl
  | wake _ => rfl
  | pass ms _ _ _ => exact w.signals_passed ms

theorem Step.equipment {ok : Disturbance → Prop} (hs : Step ok w w') : w'.run.equipment = w.run.equipment := by
  cases hs with
  | disturb x _ => exact w.equipment_disturbed x
  | move coin hm => rfl
  | wake _ => rfl
  | pass ms _ _ _ => exact w.equipment_passed ms

theorem Step.mono {ok ok' : Disturbance → Prop} (hs : Step ok w w') (hok : ∀ x, ok x → ok' x) : Step ok' w w' := by
  cases hs with
  | disturb x hx => exact .disturb x (hok x hx)
  | move coin hm => exact .move coin hm
  | wake hy => exact .wake hy
  | pass ms hpos hw halarms => exact .pass ms hpos hw halarms

theorem Step.le {ok : Disturbance → Prop} (hs : Step ok w w') : w.run.now.nanos ≤ w'.run.now.nanos := by
  cases hs with
  | disturb x _ => exact Nat.le_of_eq (congrArg Instant.nanos (w.now_disturbed x).symm)
  | move coin hm => exact Nat.le_refl _
  | wake _ => exact Nat.le_refl _
  | pass ms _ _ _ =>
    rw [w.now_passed]
    exact Instant.le_plusMillis _ ms

/-- A run that is not aborted, with devices in order: what was dismissed had been shown, and the calls to the
player have their numbers. -/
structure Orderly (w : Course) : Prop where
  aborted : w.run.signals.aborted = false
  shown : ∀ n ∈ w.run.devices.board.dismissed, n < w.run.devices.board.shown
  numbered : w.run.devices.channel.Numbered

theorem Orderly.step (ho : w.Orderly) (hs : w.Undisturbed w') : w'.Orderly := by
  refine ⟨by rw [hs.signals]; exact ho.aborted, ?_, ?_⟩
  · cases hs with
    | disturb x hx => cases hx
    | move coin hm =>
      have hposts := notices_advance hm
      intro n hn
      exact Nat.lt_of_lt_of_le (ho.shown n (hposts.dismissed ▸ hn)) hposts.shown
    | wake _ => exact ho.shown
    | pass ms _ _ _ => rw [w.devices_passed]; exact ho.shown
  · cases hs with
    | disturb x hx => cases hx
    | move coin hm => exact (advance_call hm).numbered ho.numbered
    | wake _ => exact ho.numbered
    | pass ms _ _ _ => rw [w.devices_passed]; exact ho.numbered

/-- What a run has before it while it moves at an instant. -/
def scene (w : Course) (h : Hearing) : Scene := w.run.circumstances.scene w.run.devices h

/-- What a step of a run is for what it is in at a depth. -/
inductive UnderStep (n : Nat) (b : Activity) (w w' : Course) : Prop
  /-- It moves. -/
  | moves {coin : Bool} {mb : Move} (hmb : b.advance { w.run.circumstances with coin := coin } w.run.devices = some mb)
      (hnext : w'.run.activity.inner n = some mb.next) (hd : w'.run.devices = mb.devices) (hnow : w'.run.now = w.run.now)
      (hround : w'.run.activity.isInRound n = w.run.activity.isInRound n)
  /-- A countdown around it moves. -/
  | stays (hnext : w'.run.activity.inner n = some b) (hd : w'.run.devices = w.run.devices) (hnow : w'.run.now = w.run.now)
      (hround : w'.run.activity.isInRound n = w.run.activity.isInRound n)
  /-- Its turn comes again. -/
  | wakes (hnext : w'.run.activity.inner n = some b.wake) (hd : w'.run.devices = w.run.devices)
      (hnow : w'.run.now = w.run.now) (hround : w'.run.activity.isInRound n = w.run.activity.isInRound n)
  /-- It waits, and time passes. -/
  | passes {ms : Nat} (hrest : ∀ coin, b.advance { w.run.circumstances with coin := coin } w.run.devices = none)
      (halarms : ∀ t ∈ b.alarms, (w.run.now.plusMillis ms).nanos ≤ t.nanos) (hnext : w'.run.activity.inner n = some b)
      (hd : w'.run.devices = w.run.devices) (hnow : w'.run.now = w.run.now.plusMillis ms)
      (hround : w'.run.activity.isInRound n = w.run.activity.isInRound n)
  /-- It is given up with the round that it is in. -/
  | dropped (hnext : w'.run.activity.inner n = none) (hround : w.run.activity.isInRound n = true)

theorem Undisturbed.under (hs : w.Undisturbed w') (ha : w.run.signals.aborted = false)
    (hb : w.run.activity.inner n = some b) (hnot : b.isDone = false) : UnderStep n b w w' := by
  cases hs with
  | disturb x hx => cases hx
  | @move coin m hm =>
    cases nested_advance (h := ⟨fun _ => false, ""⟩) (c := { w.run.circumstances with coin := coin }) ha hb hnot hm with
    | moves hmb hnext hd hround => exact .moves hmb hnext hd rfl hround
    | stays hnext hd hround => exact .stays hnext hd rfl hround
    | dropped hnext hround => exact .dropped hnext hround
  | wake hy => exact .wakes (inner_wake hb) rfl rfl (isInRound_wake hb)
  | pass ms hpos hw halarms =>
    refine .passes (fun coin => advance_inner_eq_none hb (hw.2 coin)) (fun t ht => halarms t (alarms_inner hb t ht)) ?_
      (w.devices_passed ms) (w.now_passed ms) ?_
    · rw [w.activity_passed]
      exact hb
    · rw [w.activity_passed]

/-! ## The moves at an instant -/

/-- The moves that a run makes at an instant, with what it is in at a depth and the countdowns around that. -/
def unrest (n : Nat) (b : Activity) (h : Hearing) (w : Course) : Nat :=
  w.run.activity.besides (w.scene h) n + b.stirs (w.scene h)

/-- A move leaves fewer moves, or begins a round of an alert that nothing paces. -/
theorem unrest_moved {coin : Bool} {m : Move} {b' : Activity} (hm : w.run.advance coin = some m) (ho : w.Orderly)
    (hh : h.IsTrue w.run.equipment) (hb : w.run.activity.inner n = some b) (hnot : b.isDone = false)
    (hb' : m.next.inner n = some b') : (w.moved m).unrest n b' h < w.unrest n b h ∨ Opens h b b' := by
  unfold unrest
  cases nested_advance (h := h) (c := { w.run.circumstances with coin := coin }) ho.aborted hb hnot hm with
  | @moves mb hmb hnext hd _ hbesides =>
    cases hnext.symm.trans hb'
    refine (stirs_advance (h := h) ho.aborted ho.shown ho.numbered hh hmb).imp_left fun hlt => ?_
    have hstirs : mb.next.stirs ((w.moved m).scene h) < b.stirs (w.scene h) := by
      show mb.next.stirs (w.run.circumstances.scene m.devices h) < _
      rw [hd]
      exact hlt
    refine Nat.lt_of_le_of_lt (Nat.add_le_add_right (Nat.le_of_eq ?_) _) (Nat.add_lt_add_left hstirs _)
    exact hbesides
  | stays hnext hd _ hbesides =>
    cases hnext.symm.trans hb'
    have hsame : (w.moved m).scene h = w.scene h := by
      show w.run.circumstances.scene m.devices h = _
      rw [hd]
      rfl
    rw [hsame]
    exact Or.inl (Nat.add_lt_add_right hbesides _)
  | dropped hnext =>
    rw [hnext] at hb'
    cases hb'

/-- So does every step at an instant. -/
theorem Undisturbed.unrest {b' : Activity} (hs : w.Undisturbed w') (ho : w.Orderly) (hh : h.IsTrue w.run.equipment)
    (hb : w.run.activity.inner n = some b) (hnot : b.isDone = false)
    (hloops : b.EachBlock fun frame _ => frame ≠ .loop .infinite) (hb' : w'.run.activity.inner n = some b')
    (hnow : w'.run.now = w.run.now) : w'.unrest n b' h < w.unrest n b h ∨ Opens h b b' := by
  cases hs with
  | disturb x hx => cases hx
  | move coin hm => exact unrest_moved hm ho hh hb hnot hb'
  | wake hy =>
    cases (inner_wake hb).symm.trans hb'
    refine Or.inl ?_
    show w.run.activity.wake.besides (w.scene h) n + b.wake.stirs (w.scene h) < _
    rw [besides_wake _ hb]
    exact Nat.add_lt_add_left (stirs_wake hloops ((hasYielded_inner hb).symm.trans hy)) _
  | pass ms hpos =>
    have hnanos := congrArg Instant.nanos (hnow.symm.trans (w.now_passed ms))
    have hlong : 0 < ms * Instant.nanosPerMilli := Nat.mul_pos hpos (by decide)
    simp only [Instant.plusMillis] at hnanos
    omega

/-! ## Runs without end -/

/-- A run that stays with what it is in at a depth, whose clock stands still from some step on, and that begins
rounds of alerts in there which nothing paces, again and again. -/
def RingsOn (n : Nat) (h : Hearing) (f : Nat → Course) : Prop :=
  (∀ k, (f k).IsUnder n) ∧ ∃ start, ∀ k, start ≤ k → (f k).run.now = (f start).run.now ∧ ∃ j, k ≤ j ∧ ∃ b b',
    (f j).run.activity.inner n = some b ∧ (f (j + 1)).run.activity.inner n = some b' ∧ Opens h b b'

variable {f : Nat → Course}

theorem le_of_steps {ok : Disturbance → Prop} (hf : ∀ k, Step ok (f k) (f (k + 1))) {j k : Nat} (hjk : j ≤ k) :
    (f j).run.now.nanos ≤ (f k).run.now.nanos := by
  induction hjk with
  | refl => exact Nat.le_refl _
  | @step k _ ih =>
    exact Nat.le_trans ih (hf k).le

/-- A clock that never goes beyond an instant stands still at last. -/
theorem exists_still (hf : ∀ k, (f k).Undisturbed (f (k + 1))) {bound : Nat} (hbound : ∀ k, (f k).run.now.nanos ≤ bound) :
    ∃ start, ∀ k, start ≤ k → (f k).run.now = (f start).run.now := by
  -- the more the clock has moved on, the less is left of it
  suffices hall : ∀ left start, bound - (f start).run.now.nanos ≤ left →
      ∃ start', ∀ k, start' ≤ k → (f k).run.now = (f start').run.now from hall _ 0 (Nat.le_refl _)
  intro left
  induction left with
  | zero =>
    intro start hleft
    refine ⟨start, fun k hk => ?_⟩
    have hle := le_of_steps hf hk
    have hk := hbound k
    have heq : (f k).run.now.nanos = (f start).run.now.nanos := by omega
    exact congrArg Instant.mk heq
  | succ left ih =>
    intro start hleft
    by_cases hstill : ∀ k, start ≤ k → (f k).run.now = (f start).run.now
    · exact ⟨start, hstill⟩
    · simp only [Classical.not_forall] at hstill
      obtain ⟨k, hk, hne⟩ := hstill
      have hle := le_of_steps hf hk
      have hlt : (f start).run.now.nanos ≠ (f k).run.now.nanos := fun heq => hne (congrArg Instant.mk heq.symm)
      have hk := hbound k
      exact ih k (by omega)

theorem orderly_of_undisturbed (hf : ∀ k, (f k).Undisturbed (f (k + 1))) (ho : (f 0).Orderly) (k : Nat) :
    (f k).Orderly := by
  induction k with
  | zero => exact ho
  | succ k ih => exact ih.step (hf k)

theorem equipment_of_steps {ok : Disturbance → Prop} (hf : ∀ k, Step ok (f k) (f (k + 1))) (k : Nat) :
    (f k).run.equipment = (f 0).run.equipment := by
  induction k with
  | zero => rfl
  | succ k ih => exact (hf k).equipment.trans ih

/-- What a run stays with brings in no new block. -/
theorem eachBlock_of_stays {P : Frame → List StepTimer.Step → Prop} (hf : ∀ k, (f k).Undisturbed (f (k + 1)))
    (ho : (f 0).Orderly) (hblocks : ∃ b, (f 0).run.activity.inner n = some b ∧ b.EachBlock P)
    (hstays : ∀ k, (f k).IsUnder n) (k : Nat) : ∃ b, (f k).run.activity.inner n = some b ∧ b.EachBlock P := by
  induction k with
  | zero => exact hblocks
  | succ k ih =>
    obtain ⟨b, hb, hblock⟩ := ih
    obtain ⟨b₁, hb₁, hnot⟩ := hstays k
    cases hb.symm.trans hb₁
    cases (hf k).under (orderly_of_undisturbed hf ho k).aborted hb hnot with
    | moves hmb hnext => exact ⟨_, hnext, eachBlock_advance hblock hmb⟩
    | stays hnext => exact ⟨b, hnext, hblock⟩
    | wakes hnext => exact ⟨_, hnext, eachBlock_wake hblock⟩
    | passes _ _ hnext => exact ⟨b, hnext, hblock⟩
    | dropped hnext =>
      obtain ⟨b', hb', -⟩ := hstays (k + 1)
      rw [hnext] at hb'
      cases hb'

/-- A run rings on only if there is an alert whose rounds nothing paces. -/
theorem not_ringsOn_of_isPaced (hf : ∀ k, (f k).Undisturbed (f (k + 1))) (ho : (f 0).Orderly)
    (hpaced : ∃ b, (f 0).run.activity.inner n = some b ∧ b.EachBlock fun frame children => frame.isPaced h children = true) :
    ¬ RingsOn n h f := by
  rintro ⟨hstays, start, hrings⟩
  obtain ⟨-, j, -, b, b', hb, -, hopens⟩ := hrings start (Nat.le_refl start)
  obtain ⟨b₁, hb₁, hblock⟩ := eachBlock_of_stays hf ho hpaced hstays j
  cases hb.symm.trans hb₁
  exact not_opens_of_isPaced hblock hopens

/-- A run in which each step leaves fewer moves, or begins a round of an alert that nothing paces, begins such
rounds again and again. -/
theorem exists_opens {start : Nat} (hinner : ∀ k, ∃ b, (f k).run.activity.inner n = some b)
    (hstep : ∀ k b b', start ≤ k → (f k).run.activity.inner n = some b → (f (k + 1)).run.activity.inner n = some b' →
      (f (k + 1)).unrest n b' h < (f k).unrest n b h ∨ Opens h b b') {k : Nat} (hk : start ≤ k) :
    ∃ j, k ≤ j ∧ ∃ b b', (f j).run.activity.inner n = some b ∧ (f (j + 1)).run.activity.inner n = some b' ∧ Opens h b b' := by
  -- by the moves that are left
  suffices hall : ∀ left k, start ≤ k → (∀ b, (f k).run.activity.inner n = some b → (f k).unrest n b h < left) →
      ∃ j, k ≤ j ∧ ∃ b b', (f j).run.activity.inner n = some b ∧ (f (j + 1)).run.activity.inner n = some b' ∧ Opens h b b' by
    obtain ⟨b, hb⟩ := hinner k
    exact hall ((f k).unrest n b h + 1) k hk fun b₁ hb₁ => by cases hb.symm.trans hb₁; exact Nat.lt_succ_self _
  intro left
  induction left with
  | zero =>
    intro k hk hleft
    obtain ⟨b, hb⟩ := hinner k
    exact absurd (hleft b hb) (Nat.not_lt_zero _)
  | succ left ih =>
    intro k hk hleft
    obtain ⟨b, hb⟩ := hinner k
    obtain ⟨b', hb'⟩ := hinner (k + 1)
    rcases hstep k b b' hk hb hb' with hlt | hopens
    · have hmore := hleft b hb
      obtain ⟨j, hj, hfound⟩ := ih (k + 1) (by omega) fun b₁ hb₁ => by
        cases hb'.symm.trans hb₁
        omega
      exact ⟨j, by omega, hfound⟩
    · exact ⟨k, Nat.le_refl k, b, b', hb, hb', hopens⟩

/-- A run that stays with what it is in, without ever going beyond an instant, rings on. -/
theorem ringsOn_of_bound (hf : ∀ k, (f k).Undisturbed (f (k + 1))) (ho : (f 0).Orderly)
    (hh : h.IsTrue (f 0).run.equipment)
    (hloops : ∃ b, (f 0).run.activity.inner n = some b ∧ b.EachBlock fun frame _ => frame ≠ .loop .infinite)
    (hstays : ∀ k, (f k).IsUnder n) (bound : Nat) (hbound : ∀ k, (f k).run.now.nanos ≤ bound) : RingsOn n h f := by
  have horderly := orderly_of_undisturbed hf ho
  have hblocks := eachBlock_of_stays hf ho hloops hstays
  obtain ⟨start, hstill⟩ := exists_still hf hbound
  refine ⟨hstays, start, fun k hk => ⟨hstill k hk, exists_opens (fun k => ?_) (fun k b b' hk hb hb' => ?_) hk⟩⟩
  · obtain ⟨b, hb, -⟩ := hstays k
    exact ⟨b, hb⟩
  · obtain ⟨b₁, hb₁, hnot⟩ := hstays k
    cases hb.symm.trans hb₁
    obtain ⟨b₁, hb₁, hblock⟩ := hblocks k
    cases hb.symm.trans hb₁
    have hnow : (f (k + 1)).run.now = (f k).run.now := (hstill (k + 1) (by omega)).trans (hstill k hk).symm
    exact (hf k).unrest (horderly k) (equipment_of_steps hf k ▸ hh) hb hnot hblock hb' hnow

/-- A run that stays with what it is in goes beyond every instant if its alerts are all paced. -/
theorem exists_beyond (hf : ∀ k, (f k).Undisturbed (f (k + 1))) (ho : (f 0).Orderly) (hh : h.IsTrue (f 0).run.equipment)
    {b : Activity} (hb : (f 0).run.activity.inner n = some b)
    (hblocks : b.EachBlock fun frame children => frame ≠ .loop .infinite ∧ frame.isPaced h children = true)
    (hstays : ∀ k, (f k).IsUnder n) (bound : Nat) : ∃ k, bound < (f k).run.now.nanos := by
  refine Classical.byContradiction fun hno => ?_
  have hbound (k : Nat) : (f k).run.now.nanos ≤ bound := Nat.le_of_not_lt fun hlt => hno ⟨k, hlt⟩
  exact not_ringsOn_of_isPaced hf ho ⟨b, hb, hblocks.mono fun _ _ => And.right⟩
    (ringsOn_of_bound hf ho hh ⟨b, hb, hblocks.mono fun _ _ => And.left⟩ hstays bound hbound)

/-! ## Runs by a script -/

/-- The milliseconds up to the next alarm of a run. -/
def nap (w : Course) : Nat := w.run.nextAlarm.elim 1 (·.millisSince w.run.now)

/-- A step of a run that nothing disturbs. -/
def proceed (w : Course) : Course :=
  (w.run.advance true).elim (if w.run.activity.hasYielded then w.woken else w.passed w.nap) w.moved

/-- Whether that is a step that the run can take. -/
def canProceed (w : Course) : Bool :=
  (w.run.advance true).isSome || w.run.activity.hasYielded || (w.run.advance false).isNone && decide (0 < w.nap) &&
    w.run.activity.alarms.all fun t => (w.run.now.plusMillis w.nap).nanos ≤ t.nanos

theorem undisturbed_proceed (hgo : w.canProceed = true) : w.Undisturbed w.proceed := by
  unfold proceed
  cases hm : w.run.advance true with
  | some m => exact .move true hm
  | none =>
    simp only [Option.elim]
    split
    · rename_i hy
      exact .wake hy
    · rename_i hy
      simp only [canProceed, hm, Option.isSome_none, Bool.false_or, hy, Bool.and_eq_true, decide_eq_true_eq,
        Option.isNone_iff_eq_none, List.all_eq_true] at hgo
      exact .pass _ hgo.1.2 (Solo.waits_of_sides (by simpa using hy) hm hgo.1.1) hgo.2

/-- A run with what befalls it after so many steps; otherwise it goes on by itself. -/
def follow (script : Nat → Option Disturbance) (w : Course) : Nat → Course
  | 0 => w
  | k + 1 => (script k).elim (w.follow script k).proceed (w.follow script k).disturbed

variable {script : Nat → Option Disturbance} {k : Nat}

theorem follow_of_none (hk : script k = none) : w.follow script (k + 1) = (w.follow script k).proceed := by
  rw [follow, hk]
  rfl

theorem follow_of_some {x : Disturbance} (hk : script k = some x) :
    w.follow script (k + 1) = (w.follow script k).disturbed x := by
  rw [follow, hk]
  rfl

theorem isDone_proceed (hd : w.run.activity.isDone = true) : w.canProceed = true ∧ w.proceed.run.activity.isDone = true := by
  have hdone : w.run.activity = .done := by
    cases ha : w.run.activity with
    | done => rfl
    | _ => rw [ha] at hd; cases hd
  have hm (coin : Bool) : w.run.advance coin = none := by rw [Solo.advance, hdone]; rfl
  have hnap : w.nap = 1 := by rw [nap, Solo.nextAlarm, hdone]; rfl
  have hy : w.run.activity.hasYielded = false := by rw [hdone]; rfl
  refine ⟨?_, ?_⟩
  · simp [canProceed, hm, hnap, hdone, alarms]
  · simpa [proceed, hm, hy] using hd

/-- A script is followed for ever when it can be up to the end of the run. -/
theorem undisturbed_follow (last : Nat) (hgo : ∀ k, k < last → ((script k).isSome || (w.follow script k).canProceed) = true)
    (hdone : (w.follow script last).run.activity.isDone = true) (hk : script k = none) :
    (w.follow script k).Undisturbed (w.follow script (k + 1)) := by
  have hdoneAfter (j : Nat) : (w.follow script (last + j)).run.activity.isDone = true := by
    induction j with
    | zero => exact hdone
    | succ j ih =>
      cases hj : script (last + j) with
      | none => exact follow_of_none hj ▸ (isDone_proceed ih).2
      | some x =>
        rw [← Nat.add_assoc, follow_of_some hj, activity_disturbed]
        exact ih
  have hcan : (w.follow script k).canProceed = true := by
    rcases Nat.lt_or_ge k last with hlt | hge
    · simpa [hk] using hgo k hlt
    · obtain ⟨j, rfl⟩ := Nat.exists_eq_add_of_le hge
      exact (isDone_proceed (hdoneAfter j)).1
  exact follow_of_none hk ▸ undisturbed_proceed hcan

end Course

end StepTimer
