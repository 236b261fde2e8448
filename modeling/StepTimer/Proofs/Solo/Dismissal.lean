/-
What a dismissal does to an alert. Wherever the alert is, nothing holds it any more: the run does not wait, not
even for a pause to end, until a move of its own ends the alert. If the run was waiting when the alert was
dismissed, that takes a few moves at most, and otherwise only an alert in its round that nothing paces can put it
off; one that spins can do so for ever. Then the run goes on with the steps after the alert, which a pause holds as
it holds any step.
-/
import StepTimer.Proofs.Solo.Closing
import StepTimer.Proofs.Solo.Spinning

namespace StepTimer

namespace Course

open Activity

variable {w w' : Course} {n : Nat} {r : Raised} {rest : List StepTimer.Step} {h : Hearing}

/-- A run that is in an alert step that was dismissed, with the steps after it. -/
structure IsDismissed (n : Nat) (r : Raised) (rest : List StepTimer.Step) (w : Course) : Prop where
  inner : ∃ b, w.run.activity.inner n = some (.within b rest) ∧ b.raised? = some r
  dismissed : r.isDismissed w.run.devices = true
  aborted : w.run.signals.aborted = false

/-- How a step of a run ends an alert that was dismissed: at that instant, with its sound silenced and a last
report, and with nothing else touched. -/
structure Returns (n : Nat) (r : Raised) (rest : List StepTimer.Step) (w w' : Course) : Prop where
  next : w'.run.activity.inner n = some (.within .done rest)
  now : w'.run.now = w.run.now
  signals : w'.run.signals = w.run.signals
  call : w'.run.activity.call? = none
  silent : ∀ p, w'.run.devices.channel.current = some p → p.owner ≠ Solo.owner
  board : w'.run.devices.board = w.run.devices.board
  notes : w'.notes = w.notes ++ [⟨w.awake, w.run.signals, .event (.progress r.id none)⟩]

/-- A move of a run that ends the alert in it. -/
theorem returns_moved {m : Move} (hnext : m.next.inner n = some (.within .done rest))
    (hd : m.devices = w.run.circumstances.silence w.run.devices) (hevents : m.events = [.progress r.id none]) :
    Returns n r rest w (w.moved m) := by
  refine ⟨hnext, rfl, rfl, call?_inner hnext, fun p hp => ?_, ?_, ?_⟩
  · have hslot : (w.run.devices.channel.stopOwnedBy Solo.owner).current = some p := by
      rw [← hp]
      show _ = m.devices.channel.current
      rw [hd]
      rfl
    exact Channel.owner_ne_of_stopOwnedBy hslot
  · show m.devices.board = _
    rw [hd]
    rfl
  · show w.notes ++ (w.run.activity.sights m).map _ = _
    rw [sights_eq_events _ (entered?_inner hnext), hevents]
    rfl

namespace IsDismissed

theorem isUnder (hi : w.IsDismissed n r rest) : w.IsUnder n := by
  obtain ⟨b, hb, -⟩ := hi.inner
  exact ⟨_, hb, rfl⟩

/-- A run in an alert that was dismissed does not wait. -/
theorem advance_ne_none (hi : w.IsDismissed n r rest) (coin : Bool) : w.run.advance coin ≠ none := by
  intro hn
  obtain ⟨b, hb, hr⟩ := hi.inner
  have hwithin := advance_inner_eq_none (c := { w.run.circumstances with coin := coin }) hb hn
  exact advance_ne_none_of_isDismissed hr hi.dismissed (advance_inner_eq_none (n := 1) (b := b) rfl hwithin)

/-- A move of the run stays in the alert, or ends it, or gives it up with a round that it is in. -/
theorem moved (hi : w.IsDismissed n r rest) {coin : Bool} {m : Move} (hm : w.run.advance coin = some m) :
    (w.moved m).IsDismissed n r rest ∨ Returns n r rest w (w.moved m) ∨
      (w.moved m).run.activity.inner n = none ∧ w.run.activity.isInRound n = true := by
  obtain ⟨b, hb, hr⟩ := hi.inner
  have hdismissed : r.isDismissed m.devices = true := (isDismissed_advance hm r).trans hi.dismissed
  cases nested_advance (h := ⟨fun _ => false, ""⟩) (c := { w.run.circumstances with coin := coin }) hi.aborted hb rfl hm with
  | moves hmb hnext hd _ _ hevents =>
    rcases advance_within_raised hr hmb with ⟨m', -, hnext', rfl⟩ | rfl
    · exact Or.inl ⟨⟨m'.next, hnext, hnext'⟩, hdismissed, hi.aborted⟩
    · exact Or.inr (Or.inl (returns_moved hnext hd hevents))
  | stays hnext => exact Or.inl ⟨⟨b, hnext, hr⟩, hdismissed, hi.aborted⟩
  | dropped hnext hround => exact Or.inr (Or.inr ⟨hnext, hround⟩)

theorem step (hi : w.IsDismissed n r rest) (hs : w.Undisturbed w') :
    w'.IsDismissed n r rest ∨ Returns n r rest w w' ∨ w'.run.activity.inner n = none ∧ w.run.activity.isInRound n = true := by
  cases hs with
  | disturb x hx => cases hx
  | move coin hm => exact hi.moved hm
  | wake _ =>
    obtain ⟨b, hb, hr⟩ := hi.inner
    exact Or.inl ⟨⟨b.wake, inner_wake hb, by rw [raised?_wake]; exact hr⟩, hi.dismissed, hi.aborted⟩
  | pass ms _ hw => exact absurd (hw.2 true) (hi.advance_ne_none true)

/-- The clock stands still while a run is in an alert that was dismissed. -/
theorem now_step {ok : Disturbance → Prop} (hi : w.IsDismissed n r rest) (hs : Step ok w w') : w'.run.now = w.run.now := by
  cases hs with
  | disturb x _ => exact w.now_disturbed x
  | move coin hm => rfl
  | wake _ => rfl
  | pass ms _ hw => exact absurd (hw.2 true) (hi.advance_ne_none true)

end IsDismissed

/-- A course in which a run stays in an alert that was dismissed. Anything else can befall it. -/
abbrev StaysDismissed (n : Nat) (r : Raised) (rest : List StepTimer.Step) : Course → Course → Prop :=
  Relation.ReflTransGen fun w w' => Step (fun _ => True) w w' ∧ w'.IsDismissed n r rest

theorem IsDismissed.stays (hi : w.IsDismissed n r rest) (hs : StaysDismissed n r rest w w') :
    w'.IsDismissed n r rest ∧ w'.run.now = w.run.now := by
  induction hs with
  | refl => exact ⟨hi, rfl⟩
  | tail _ hstep ih => exact ⟨hstep.2, (ih.1.now_step hstep.1).trans ih.2⟩

/-! ## The moves that are left -/

/-- A run that is in an alert which was dismissed while nothing could move, with at most so many moves before
it. -/
structure IsClosing (n : Nat) (r : Raised) (rest : List StepTimer.Step) (left : Nat) (w : Course) : Prop where
  inner : ∃ b, w.run.activity.inner n = some (.within b rest) ∧ b.raised? = some r ∧ b.closing ≤ left ∧
    ∀ coin, b.RoundRests { w.run.circumstances with coin := coin } w.run.devices
  dismissed : r.isDismissed w.run.devices = true
  aborted : w.run.signals.aborted = false
  around : w.run.activity.AroundRests w.run.now w.run.signals w.run.devices n

namespace IsClosing

variable {left : Nat}

theorem isDismissed (hi : w.IsClosing n r rest left) : w.IsDismissed n r rest := by
  obtain ⟨b, hb, hr, -⟩ := hi.inner
  exact ⟨⟨b, hb, hr⟩, hi.dismissed, hi.aborted⟩

theorem left_pos (hi : w.IsClosing n r rest left) : 0 < left := by
  obtain ⟨b, -, hr, hle, -⟩ := hi.inner
  exact Nat.lt_of_lt_of_le (closing_pos hr) hle

/-- Each move brings it nearer to its end. -/
theorem moved (hi : w.IsClosing n r rest left) {coin : Bool} {m : Move} (hm : w.run.advance coin = some m) :
    (w.moved m).IsClosing n r rest (left - 1) ∨ Returns n r rest w (w.moved m) := by
  obtain ⟨b, hb, hr, hle, hrests⟩ := hi.inner
  obtain ⟨mb, hmb, hnext, hd, hevents, haround⟩ :=
    AroundRests.advance (c := { w.run.circumstances with coin := coin }) hi.around hb rfl hm
  rcases advance_within_raised hr hmb with ⟨m', hm', hnext', rfl⟩ | rfl
  · obtain ⟨hless, hkept⟩ := closing_advance hr hi.dismissed (hrests coin) hm'
    refine Or.inl ⟨⟨m'.next, hnext, hnext', by omega, fun coin' => ?_⟩, ?_, hi.aborted, haround⟩
    · show m'.next.RoundRests _ m.devices
      rw [hd]
      exact hkept _ (hrests coin')
    · exact (isDismissed_advance hm r).trans hi.dismissed
  · exact Or.inr (returns_moved hnext hd hevents)

end IsClosing

/-- A move of a run, with any coin. -/
def GoesOn (w w' : Course) : Prop := ∃ coin m, w.run.advance coin = some m ∧ w' = w.moved m

theorem GoesOn.undisturbed (hs : w.GoesOn w') : w.Undisturbed w' := by
  obtain ⟨coin, m, hm, rfl⟩ := hs
  exact .move coin hm

/-- A run that moves as long as it is in an alert that was dismissed. -/
def Hastens (n : Nat) (r : Raised) (rest : List StepTimer.Step) (f : Nat → Course) : Prop :=
  ∀ k, (f k).IsDismissed n r rest → (f k).GoesOn (f (k + 1))

variable {f : Nat → Course}

/-- An alert that was dismissed while nothing could move returns in so many moves. -/
theorem IsClosing.returns {left : Nat} (hi : (f 0).IsClosing n r rest left) (hf : Hastens n r rest f) :
    ∃ j, j < left ∧ Returns n r rest (f j) (f (j + 1)) := by
  suffices hall : ∀ left k, (f k).IsClosing n r rest left → ∃ j, j < k + left ∧ Returns n r rest (f j) (f (j + 1)) by
    obtain ⟨j, hj, hreturns⟩ := hall left 0 hi
    exact ⟨j, by omega, hreturns⟩
  intro left
  induction left with
  | zero => exact fun k hi => absurd hi.left_pos (Nat.lt_irrefl 0)
  | succ left ih =>
    intro k hi
    obtain ⟨coin, m, hm, he⟩ := hf k hi.isDismissed
    rcases hi.moved hm with hnext | hreturns
    · obtain ⟨j, hj, hfound⟩ := ih (k + 1) (by rw [he]; exact hnext)
      exact ⟨j, by omega, hfound⟩
    · exact ⟨k, by omega, he ▸ hreturns⟩

/-- The moves of a run in an alert that was dismissed come to the end of that, or go on for ever because of an alert
in its round that nothing paces. -/
theorem IsDismissed.returns_or_ringsOn (hi : (f 0).IsDismissed n r rest) (hf : Hastens n r rest f) (ho : (f 0).Orderly)
    (hh : h.IsTrue (f 0).run.equipment) :
    (∃ k, Returns n r rest (f k) (f (k + 1)) ∨
      (f (k + 1)).run.activity.inner n = none ∧ (f k).run.activity.isInRound n = true) ∨ RingsOn n h f := by
  rcases all_or_last (P := fun k => (f k).IsDismissed n r rest) hi with hall | ⟨k, hupto, hlast⟩
  · have hf' (k : Nat) : (f k).Undisturbed (f (k + 1)) := (hf k (hall k)).undisturbed
    refine Or.inr ⟨fun k => (hall k).isUnder, 0, fun k hk => ⟨?_, ?_⟩⟩
    · induction k with
      | zero => rfl
      | succ k ih => exact ((hall k).now_step (hf' k)).trans (ih (Nat.zero_le k))
    · refine exists_opens (fun k => ?_) (fun k b b' _ hb hb' => ?_) hk
      · obtain ⟨b, hb, -⟩ := (hall k).isUnder
        exact ⟨b, hb⟩
      · obtain ⟨b₁, hb₁, hnot⟩ := (hall k).isUnder
        cases hb.symm.trans hb₁
        obtain ⟨coin, m, hm, he⟩ := hf k (hall k)
        rw [he] at hb' ⊢
        exact unrest_moved hm (orderly_of_undisturbed hf' ho k) (equipment_of_steps hf' k ▸ hh) hb hnot hb'
  · have hk := hupto k (Nat.le_refl k)
    exact Or.inl ⟨k, (hk.step (hf k hk).undisturbed).resolve_left hlast⟩

/-- An alert in the round of one that was dismissed, when it spins and all coins fall so, puts the end off for
ever: the countdown beside the round, which sees the dismissal, does not come to move. -/
theorem IsDismissed.put_off {i : Nat} {now : Instant} (hi : w.IsDismissed n r rest) (hs : w.IsSpinning i now)
    (hdeep : n + 1 < i) (j : Nat) :
    (w.follow (fun _ => none) j).IsDismissed n r rest ∧
      (w.follow (fun _ => none) j).GoesOn (w.follow (fun _ => none) (j + 1)) := by
  obtain ⟨-, m, hm, hnext⟩ := hs.follow j
  refine ⟨?_, true, m, hm, hnext⟩
  clear m hm hnext
  induction j with
  | zero => exact hi
  | succ j ih =>
    obtain ⟨-, m, hm, hnext⟩ := hs.follow j
    obtain ⟨b, hb, -⟩ := (hs.follow (j + 1)).1.spins
    obtain ⟨k, rfl⟩ := Nat.exists_eq_add_of_lt hdeep
    have hdepth : n + 1 + k + 1 = n + (k + 2) := by omega
    rw [hdepth, inner_add] at hb
    rw [hnext] at hb ⊢
    rcases ih.moved hm with hstays | hreturns | ⟨hgone, -⟩
    · exact hstays
    · rw [hreturns.next] at hb
      cases hb
    · rw [hgone] at hb
      cases hb

/-! ## After the alert -/

/-- A run that is over with a step and not yet in the next one. -/
def IsBetween (n : Nat) (rest : List StepTimer.Step) (w : Course) : Prop :=
  ∃ a, w.run.activity.inner n = some a ∧ Between rest a

/-- What a run does after a step: it goes on to the next one, unless it is paused. -/
structure Resumes (n : Nat) (rest : List StepTimer.Step) (w : Course) : Prop where
  rests : (∀ coin, w.run.advance coin = none) → w.run.signals.paused = true
  step : ∀ w', w.Undisturbed w' → w'.IsBetween n rest ∨
    (w.run.signals.paused = false ∧ ∃ s later, rest = s :: later ∧ w'.run.activity.inner n = some (.within (.entering s) later)) ∨
    (rest = [] ∧ w'.run.activity.inner n = some .done) ∨
    w'.run.activity.inner n = none ∧ w.run.activity.isInRound n = true

theorem IsBetween.resumes (hi : w.IsBetween n rest) (ha : w.run.signals.aborted = false) : w.Resumes n rest := by
  obtain ⟨a, hb, hbetween⟩ := hi
  refine ⟨fun hn => hbetween.paused_of_rest (advance_inner_eq_none hb (hn true)), fun w' hs => ?_⟩
  cases hs.under ha hb hbetween.isDone_eq with
  | @moves coin mb hmb hnext =>
    rcases hbetween.advance (c := { w.run.circumstances with coin := coin }) ha hmb with hnext' | ⟨hp, s, later, hrest, he⟩ | ⟨hrest, he⟩
    · exact Or.inl ⟨_, hnext, hnext'⟩
    · exact Or.inr (Or.inl ⟨hp, s, later, hrest, by rw [hnext, he]⟩)
    · exact Or.inr (Or.inr (Or.inl ⟨hrest, by rw [hnext, he]⟩))
  | stays hnext => exact Or.inl ⟨a, hnext, hbetween⟩
  | wakes hnext => exact Or.inl ⟨_, hnext, hbetween.wake⟩
  | passes _ _ hnext => exact Or.inl ⟨a, hnext, hbetween⟩
  | dropped hnext hround => exact Or.inr (Or.inr (Or.inr ⟨hnext, hround⟩))

/-- A course in which a run stays between two steps. Anything else can befall it. -/
abbrev StaysBetween (n : Nat) (rest : List StepTimer.Step) : Course → Course → Prop :=
  Relation.ReflTransGen fun w w' => Step (fun _ => True) w w' ∧ w'.IsBetween n rest

/-! ## Dismissals -/

/-- A course in which others show notifications under new numbers. -/
abbrev Fair : Course → Course → Prop :=
  Relation.ReflTransGen fun w w' => Step (fun _ => True) w w' ∧ w.run.devices.board.shown ≤ w'.run.devices.board.shown

/-- The notifications of the alerts that a run is in were shown, each under a number of its own. -/
structure Posted (w : Course) : Prop where
  nodup : w.run.activity.notices.Nodup
  shown : ∀ k ∈ w.run.activity.notices, k < w.run.devices.board.shown

theorem Posted.step {ok : Disturbance → Prop} (hp : w.Posted) (hs : Step ok w w')
    (hshown : w.run.devices.board.shown ≤ w'.run.devices.board.shown) : w'.Posted := by
  have hsame (ha : w'.run.activity.notices = w.run.activity.notices) : w'.Posted := by
    refine ⟨ha ▸ hp.nodup, fun k hk => ?_⟩
    rw [ha] at hk
    exact Nat.lt_of_lt_of_le (hp.shown k hk) hshown
  cases hs with
  | disturb x _ => exact hsame (by rw [w.activity_disturbed])
  | move coin hm =>
    have hposts := notices_advance hm
    refine ⟨hposts.nodup hp.nodup hp.shown, fun k hk => ?_⟩
    rcases hposts.added k hk with hold | ⟨-, hnew⟩
    · exact Nat.lt_of_lt_of_le (hp.shown k hold) hshown
    · exact hnew
  | wake _ => exact hsame w.run.activity.notices_wake
  | pass ms => exact hsame (by rw [w.activity_passed])

theorem posted_of_fair {w₀ : Course} {steps : List StepTimer.Step} (h₀ : w₀.Begins steps) (hw : Fair w₀ w) : w.Posted := by
  induction hw with
  | refl => exact ⟨by rw [h₀.activity]; exact .nil, by rw [h₀.activity]; nofun⟩
  | tail _ hstep ih => exact ih.step hstep.1 hstep.2

/-- The dismissal of an alert in which nothing could move. -/
theorem isClosing_dismissed {v : Course} {b : Activity} {k : Nat} (hp : v.Posted) (ha : v.run.signals.aborted = false)
    (hb : v.run.activity.inner n = some (.within b rest)) (hr : b.raised? = some r) (hk : r.notice = some k)
    (hrest : ∀ coin, v.run.advance coin = none) :
    (v.disturbed (.share (v.run.devices.dismiss k))).IsClosing n r rest 4 := by
  have hmem : k ∈ b.notices := mem_notices_of_raised? hr hk
  obtain ⟨haround, hnodup⟩ := (aroundRests_of_rest (c := { v.run.circumstances with coin := true }) hb (hrest true)).dismiss hb
    hmem hp.nodup
  refine ⟨⟨b, hb, hr, ?_, fun coin => ?_⟩, isDismissed_dismiss_self hk, ha, haround⟩
  · have hspan (t : Ticking) : t.span ≤ 2 := by unfold Ticking.span; split <;> decide
    cases b with
    | alertRound r t current => exact Nat.add_le_add_right (hspan t) 2
    | alertGap r t => exact Nat.le_trans (Nat.add_le_add_right (hspan t) 1) (by decide)
    | _ => simp [closing]
  · have hn := advance_inner_eq_none (c := { v.run.circumstances with coin := coin }) hb (hrest coin)
    exact (roundRests_of_rest (advance_inner_eq_none (n := 1) (b := b) rfl hn)).dismiss hr hk hnodup

/-- A dismissed alert ends at once and alone. Take any run, and any alert in it that is up, whatever that is in
the midst of, and dismiss it. From then on, whatever else befalls the run, the clock stands still and the run
does not wait, not even for a pause to end, until a step of its own ends the alert: with its sound silenced and a
last report, and with nothing else touched. If the run was waiting when the alert was dismissed, that takes four
moves at most, however the coins fall; otherwise only an alert in its round that nothing paces can put it off, and
one that spins does so for ever when the coins fall so. Then the run goes on with the steps after the alert, for
which it waits only if it is paused. -/
theorem dismissal_ends_alert {w₀ v w : Course} {steps : List StepTimer.Step} {b : Activity} {k : Nat} (h₀ : w₀.Begins steps)
    (hv : Fair w₀ v) (ho : v.Orderly) (hb : v.run.activity.inner n = some (.within b rest)) (hr : b.raised? = some r)
    (hk : r.notice = some k) (hw : w = v.disturbed (.share (v.run.devices.dismiss k))) :
    (∀ w', StaysDismissed n r rest w w' → w'.run.now = v.run.now ∧ (∀ coin, w'.run.advance coin ≠ none) ∧
      ∀ w'', w'.Undisturbed w'' → w''.IsDismissed n r rest ∨ Returns n r rest w' w'' ∨
        w''.run.activity.inner n = none ∧ w'.run.activity.isInRound n = true) ∧
    ((∀ coin, v.run.advance coin = none) → ∀ f : Nat → Course, f 0 = w → Hastens n r rest f →
      ∃ j, j < 4 ∧ Returns n r rest (f j) (f (j + 1))) ∧
    (∀ (f : Nat → Course) (h : Hearing), f 0 = w → Hastens n r rest f → h.IsTrue v.run.equipment →
      (∃ j, Returns n r rest (f j) (f (j + 1)) ∨
        (f (j + 1)).run.activity.inner n = none ∧ (f j).run.activity.isInRound n = true) ∨ RingsOn n h f) ∧
    (∀ i, n + 1 < i → w.IsSpinning i v.run.now → ∃ f : Nat → Course, f 0 = w ∧ ∀ j, (f j).GoesOn (f (j + 1)) ∧
      (f j).IsDismissed n r rest ∧ (f j).run.now = v.run.now) ∧
    ∀ w' w'' u, StaysDismissed n r rest w w' → Returns n r rest w' w'' → StaysBetween n rest w'' u →
      u.run.signals.aborted = false → u.Resumes n rest := by
  subst hw
  have hposted := posted_of_fair h₀ hv
  have hmem : k ∈ b.notices := mem_notices_of_raised? hr hk
  have hi : (v.disturbed (.share (v.run.devices.dismiss k))).IsDismissed n r rest :=
    ⟨⟨b, hb, hr⟩, isDismissed_dismiss_self hk, ho.aborted⟩
  refine ⟨fun w' hs => ?_, fun hrest f hzero hf => ?_, fun f h hzero hf hh => ?_, fun i hdeep hs => ?_,
    fun w' w'' u _ hreturns hs ha => ?_⟩
  · obtain ⟨hi', hnow⟩ := hi.stays hs
    exact ⟨hnow, hi'.advance_ne_none, fun w'' hs' => hi'.step hs'⟩
  · exact IsClosing.returns (hzero ▸ isClosing_dismissed hposted ho.aborted hb hr hk hrest) hf
  · have horderly : (v.disturbed (.share (v.run.devices.dismiss k))).Orderly := by
      refine ⟨ho.aborted, fun m hm => ?_, ho.numbered⟩
      rcases List.mem_cons.1 hm with rfl | hm
      · exact hposted.shown _ (notices_inner hb _ hmem)
      · exact ho.shown m hm
    exact IsDismissed.returns_or_ringsOn (hzero ▸ hi) hf (hzero ▸ horderly) (hzero ▸ hh)
  · refine ⟨fun j => (v.disturbed (.share (v.run.devices.dismiss k))).follow (fun _ => none) j, rfl, fun j => ?_⟩
    obtain ⟨hdismissed, hgoes⟩ := hi.put_off hs hdeep j
    exact ⟨hgoes, hdismissed, (hs.follow j).1.now⟩
  · have hbetween : u.IsBetween n rest := by
      cases hs with
      | refl => exact ⟨_, hreturns.next, .ended⟩
      | tail _ hstep => exact hstep.2
    exact hbetween.resumes ha

theorem hastens_follow (w : Course) : Hastens n r rest (w.follow fun _ => none) := by
  intro k hi
  obtain ⟨m, hm⟩ := Option.ne_none_iff_exists'.1 (hi.advance_ne_none true)
  refine ⟨true, m, hm, (follow_of_none rfl).trans ?_⟩
  simp [proceed, hm]

theorem fair_of_undisturbed (hs : w.Undisturbed w') : Fair w w' := by
  cases hs with
  | disturb x hx => cases hx
  | move coin hm => exact .single ⟨.move coin hm, (notices_advance hm).shown⟩
  | wake hy => exact .single ⟨.wake hy, Nat.le_refl _⟩
  | pass ms hpos hw halarms => exact .single ⟨.pass ms hpos hw halarms, by rw [w.devices_passed]⟩

theorem fair_of_moves (hm : Moves w w') : Fair w w' := by
  induction hm with
  | refl => exact .refl
  | tail _ hstep ih =>
    obtain ⟨coin, m, hm, rfl⟩ := hstep
    exact ih.trans (fair_of_undisturbed (.move coin hm))

theorem fair_follow (k : Nat) (hgo : ∀ j, j < k → (w.follow (fun _ => none) j).canProceed = true) :
    Fair w (w.follow (fun _ => none) k) := by
  induction k with
  | zero => exact .refl
  | succ k ih =>
    rw [follow_of_none rfl]
    exact (ih fun j hj => hgo j (Nat.lt_succ_of_lt hj)).trans
      (fair_of_undisturbed (undisturbed_proceed (hgo k (Nat.lt_succ_self k))))

/-- A kettle with an alarm, in which water boils for a minute, and a sound after it. -/
def kettle : Course :=
  ⟨.ofSteps ⟨fun _ _ => .endless, ⟨fun _ => ⟨.granted, some 0⟩, fun _ => ⟨some 0, false⟩⟩, "bell", fun _ => ⟨0⟩⟩
    [.block "alarm" (.notifyUntil { title := "Water" }) [.leaf "boil" (.wait (.ofNat 1) .minutes)], .leaf "tea" (.playSound {})],
    0, []⟩

/-- It is paused while the water boils. -/
def kettlePaused : Course := ((kettle.goOn 20).disturbed (.control .pause)).goOn 20

/-- An alarm with a bell in its round whose sound takes no time. Each notification is up after 100 milliseconds. -/
def belfry : Course :=
  ⟨.ofSteps ⟨fun _ _ => .lasts 0, ⟨fun _ => ⟨.granted, some 0⟩, fun _ => ⟨some 100, false⟩⟩, "", fun _ => ⟨0⟩⟩
    [.block "alarm" (.notifyUntil { title := "Water" }) [.block "bell" (.notifyUntil { title := "Bell" }) []]], 0, []⟩

/-- The instant at which the notification of the bell is to come up; the alarm is dismissed before it does. -/
def belfryDismissed : Course :=
  let v := belfry.follow (fun _ => none) 11
  v.disturbed (.share (v.run.devices.dismiss 0))

/-- A kettle's alarm is dismissed during a pause and ends in it, before the sound after it. But the alarm of the
belfry is put off by its bell, and can stay for ever at the instant of its dismissal. -/
theorem dismissal_ends_alert_kettle :
    (kettlePaused.run.signals.paused = true ∧ (∀ coin, kettlePaused.run.advance coin = none) ∧
      ∃ r j, r.id = "alarm" ∧ j < 4 ∧
        Returns 0 r [.leaf "tea" (.playSound {})]
          ((kettlePaused.disturbed (.share (kettlePaused.run.devices.dismiss 0))).follow (fun _ => none) j)
          ((kettlePaused.disturbed (.share (kettlePaused.run.devices.dismiss 0))).follow (fun _ => none) (j + 1))) ∧
    ∃ r, r.id = "alarm" ∧ ∃ f : Nat → Course, f 0 = belfryDismissed ∧ ∀ j, (f j).GoesOn (f (j + 1)) ∧
      (f j).IsDismissed 0 r [] ∧ (f j).run.now = ⟨200000000⟩ := by
  constructor
  · have hfair : Fair kettle kettlePaused :=
      ((fair_of_moves (moves_goOn 20 _)).tail ⟨.disturb (.control .pause) trivial, Nat.le_refl _⟩).trans
        (fair_of_moves (moves_goOn 20 _))
    have hrest (coin : Bool) : kettlePaused.run.advance coin = none := by cases coin <;> rfl
    obtain ⟨b, r, hb, hr, hk, hid⟩ : ∃ b r,
        kettlePaused.run.activity.inner 0 = some (.within b [.leaf "tea" (.playSound {})]) ∧
          b.raised? = some r ∧ r.notice = some 0 ∧ r.id = "alarm" := ⟨_, _, rfl, rfl, rfl, rfl⟩
    obtain ⟨-, hreturns, -⟩ :=
      dismissal_ends_alert ⟨rfl, rfl, rfl⟩ hfair ⟨rfl, nofun, ⟨⟨nofun, nofun⟩, nofun⟩⟩ hb hr hk rfl
    obtain ⟨j, hj, hreturn⟩ := hreturns hrest _ rfl (hastens_follow _)
    exact ⟨rfl, hrest, r, j, hid, hj, hreturn⟩
  · have hfair : Fair belfry (belfry.follow (fun _ => none) 11) := fair_follow 11 (by decide +kernel)
    obtain ⟨b, r, hb, hr, hk, hid⟩ : ∃ b r,
        (belfry.follow (fun _ => none) 11).run.activity.inner 0 = some (.within b []) ∧
          b.raised? = some r ∧ r.notice = some 0 ∧ r.id = "alarm" := ⟨_, _, rfl, rfl, rfl, rfl⟩
    have horderly : belfryDismissed.Orderly := ⟨rfl, by decide +kernel, ⟨⟨nofun, nofun⟩, nofun⟩⟩
    have hidle : Alert.IsIdle { title := "Bell" } belfryDismissed.run.equipment := ⟨by decide +kernel, fun _ => rfl⟩
    have hbell : belfryDismissed.run.activity.inner 3 = some (.announcing "bell" { title := "Bell" } [] _ _) := rfl
    have hspins : belfryDismissed.IsSpinning 3 ⟨200000000⟩ :=
      ⟨horderly, rfl, rfl, _, hbell, .announcing _ hidle (fun hask => by cases hask) (by decide +kernel)
        (by decide +kernel), fun r hr => by cases hr⟩
    obtain ⟨-, -, -, hput, -⟩ :=
      dismissal_ends_alert ⟨rfl, rfl, rfl⟩ hfair ⟨rfl, nofun, ⟨⟨nofun, nofun⟩, nofun⟩⟩ hb hr hk rfl
    obtain ⟨f, hzero, hf⟩ := hput 3 (by decide) hspins
    exact ⟨r, hid, f, hzero, hf⟩

end Course

end StepTimer
