/-
The cadence of an alert. What is heard of a run that nothing disturbs, while it is in an alert without steps, is what
is heard of the alert (`HeardStep`), so its sounds start one after another without drift until its timeout is over
(`Chiming`). Then the alert ends, and it does come to that: as its sounds or its intervals take time, no run stays in
it for ever.
-/
import StepTimer.Proofs.Solo.Chimes

namespace StepTimer

/-- The cadence of an alert whose step becomes active in a run, with a sound that lasts so long. -/
def Alert.cadence (alert : Alert) (w : Course) (lasts : Nat) : Cadence :=
  ⟨alert.sound.effectiveUrl w.run.equipment.defaultSound, lasts, w.run.now, alert.intervalMs.toNat, alert.timeout.toNat⟩

/-- Something paces the rounds of an alert whose sound and interval do not both take no time. -/
theorem Cadence.IsOf.isPaced {q : Cadence} {alert : Alert} {e : Equipment} (hq : q.IsOf alert e) (hperiod : 0 < q.period) :
    ∃ h : Hearing, h.IsTrue e ∧ Frame.isPaced h [] (.notifyUntil alert) = true := by
  refine ⟨⟨fun u => u == q.url && decide (0 < q.lasts), e.defaultSound⟩, ⟨fun n u hu => ?_, rfl⟩, ?_⟩
  · simp only [Bool.and_eq_true, beq_iff_eq] at hu
    rw [hu.1, hq.lasts n]
    exact hu.2
  · simp only [Frame.isPaced, Raised.isPaced, Raised.holdsUp, Hearing.hears, List.isEmpty_nil, if_true, hq.url, hq.interval,
      beq_self_eq_true, Bool.true_and, Bool.or_eq_true, decide_eq_true_eq]
    unfold period at hperiod
    omega

namespace Solo

/-- What was heard of a run so far and when, the oldest first. -/
def heard (s : Solo) : List (Nat × Event) :=
  s.trace.reverse.filterMap fun p => match p.2 with
    | .event e => if e.isHeard then some (p.1, e) else none
    | .control _ _ => none

theorem heard_apply (s : Solo) (m : Move) : (s.apply m).heard = s.heard ++ s.now.heard m.events := by
  simp only [heard, apply, List.reverse_append, List.reverse_reverse, List.filterMap_append, List.filterMap_map]
  rfl

end Solo

namespace Course

open Activity

variable {w w' : Course} {n : Nat} {b : Activity}

/-- What is heard of a step of a run, for what it is in at a depth. -/
inductive HeardStep (n : Nat) (b : Activity) (w w' : Course) : Prop
  /-- It moves. -/
  | moves {coin : Bool} {mb : Move} (hmb : b.advance { w.run.circumstances with coin := coin } w.run.devices = some mb)
      (hnext : w'.run.activity.inner n = some mb.next) (hd : w'.run.devices = mb.devices) (hnow : w'.run.now = w.run.now)
      (hheard : w'.run.heard = w.run.heard ++ w.run.now.heard mb.events)
  /-- It stays, or its turn comes again, and nothing is heard. -/
  | stays (hnext : w'.run.activity.inner n = some b ∨ w'.run.activity.inner n = some b.wake)
      (hd : w'.run.devices = w.run.devices) (hnow : w'.run.now = w.run.now) (hheard : w'.run.heard = w.run.heard)
  /-- It waits, and time passes. -/
  | passes {ms : Nat} (hrest : b.advance w.run.circumstances w.run.devices = none)
      (halarms : ∀ t ∈ b.alarms, (w.run.now.plusMillis ms).nanos ≤ t.nanos) (hnext : w'.run.activity.inner n = some b)
      (hd : w'.run.devices = w.run.devices) (hnow : w'.run.now = w.run.now.plusMillis ms)
      (hheard : w'.run.heard = w.run.heard)
  /-- It is given up with the round that it is in. -/
  | dropped (hnext : w'.run.activity.inner n = none) (hin : w.run.activity.isInRound n = true)

theorem heard_passedTo (w : Course) (t : Instant) (ms : Nat) : (w.passedTo t ms).run.heard = w.run.heard := rfl

theorem Undisturbed.heard (hs : w.Undisturbed w') (hb : w.run.activity.inner n = some b) (hnot : b.isDone = false) :
    HeardStep n b w w' := by
  cases hs with
  | disturb x hx => cases hx
  | @move coin m hm =>
    have hheard : (w.moved m).run.heard = _ := w.run.heard_apply m
    cases heard_advance (c := { w.run.circumstances with coin := coin }) hb hnot hm with
    | moves hmb hnext hd _ hevents => exact .moves hmb hnext hd rfl (hevents ▸ hheard)
    | stays hnext hd _ _ hquiet =>
      refine .stays (Or.inl hnext) hd rfl ?_
      rw [hheard, Instant.heard_eq_nil hquiet, List.append_nil]
    | dropped hnext hin => exact .dropped hnext hin
  | wake _ => exact .stays (Or.inr (inner_wake hb)) rfl rfl rfl
  | pass ms _ hw halarms =>
    refine .passes (advance_inner_eq_none hb (hw.2 true)) (fun t ht => halarms t (alarms_inner hb t ht)) ?_
      (w.devices_passed ms) (w.now_passed ms) (w.heard_passedTo _ ms)
    rw [w.activity_passed]
    exact hb

/-! ## Runs in an alert -/

variable {q : Cadence} {id : StepId} {alert : Alert} {before : List (Nat × Event)} {el : Nat}

/-- A run that is in an alert without steps which has been active for so many milliseconds, with nothing that holds
it up, and what was heard of it before the alert and since. -/
structure Chiming (q : Cadence) (id : StepId) (alert : Alert) (before : List (Nat × Event)) (n el : Nat)
    (sounds : List (Nat × Event)) (b : Activity) (w : Course) : Prop extends Unhindered n b w where
  now : w.run.now = q.start.plusMillis el
  heard : w.run.heard = before ++ sounds
  chimes : Chimes q id alert el w.run.now w.run.devices.channel sounds b

/-- The end of an alert whose time is over: just the sounds that start before that were heard of it. -/
structure RangOut (q : Cadence) (before : List (Nat × Event)) (w : Course) : Prop where
  now : w.run.now = q.start.plusMillis q.total
  heard : ∃ count sounds, q.Rings count sounds ∧ (∀ j, j < count ↔ j * q.period < q.total) ∧ w.run.heard = before ++ sounds

variable {sounds : List (Nat × Event)}

namespace Chiming

theorem isUnder (hi : Chiming q id alert before n el sounds b w) : w.IsUnder n :=
  ⟨b, hi.inner, isDone_of_isAlert hi.chimes.isAlert⟩

/-- A step of a run that nothing disturbs brings its alert on its way, or ends it when its time is over, or gives it up
with the round that it is in. -/
theorem undisturbed (hi : Chiming q id alert before n el sounds b w) (ho : w.Orderly) (hq : q.IsOf alert w.run.equipment)
    (hask : w.run.equipment.notifier.AnswersAtOnce) (hs : w.Undisturbed w') :
    ((∃ el' sounds' b', Chiming q id alert before n el' sounds' b' w') ∧
        w'.run.activity.isInRound n = w.run.activity.isInRound n) ∨
      (w'.run.activity.inner n = some .done ∧ RangOut q before w') ∨
        w'.run.activity.inner n = none ∧ w.run.activity.isInRound n = true := by
  have hnot := isDone_of_isAlert hi.chimes.isAlert
  have hu := hs.under hi.aborted hi.inner hnot
  have hgoes {el' : Nat} {sounds' : List (Nat × Event)} {b' : Activity} (hb' : w'.run.activity.inner n = some b')
      (hnow : w'.run.now = q.start.plusMillis el') (hheard : w'.run.heard = before ++ sounds')
      (hchimes : Chimes q id alert el' w'.run.now w'.run.devices.channel sounds' b') :
      (∃ el' sounds' b', Chiming q id alert before n el' sounds' b' w') ∧
        w'.run.activity.isInRound n = w.run.activity.isInRound n :=
    ⟨⟨el', sounds', b', hi.toUnhindered.undisturbed ho hs hi.chimes.isAlert hb', hnow, hheard, hchimes⟩, hu.isInRound hb'⟩
  cases hs.heard hi.inner hnot with
  | @moves coin mb hmb hnext hd hsame hheard =>
    rw [hi.heard, List.append_assoc] at hheard
    cases Chimes.advance (c := { w.run.circumstances with coin := coin }) hi.chimes hi.now hq hask hi.aborted hi.paused
      hi.unheeded ho.numbered hmb with
    | goes hchimes => exact Or.inl (hgoes hnext (hsame.trans hi.now) hheard (by rw [hsame, hd]; exact hchimes))
    | ends hdone hel hrings hall hquiet =>
      refine Or.inr (Or.inl ⟨hnext.trans (congrArg some hdone), ?_, _, sounds, hrings, hrings.lt_iff hall, ?_⟩)
      · rw [hsame, hi.now, hel]
      · have hnothing : w.run.now.heard mb.events = [] := hquiet
        rw [hheard, hnothing, List.append_nil]
  | stays hnext hd hsame hheard =>
    have hnext : w'.run.activity.inner n = some b := hnext.elim (·) fun hwoken => by rw [hwoken, hi.chimes.wake_eq]
    exact Or.inl (hgoes hnext (hsame.trans hi.now) (hheard.trans hi.heard) (by rw [hsame, hd]; exact hi.chimes))
  | @passes ms hrest halarms hnext hd hpassed hheard =>
    have hnow : w'.run.now = q.start.plusMillis (el + ms) := by rw [hpassed, hi.now, Instant.plusMillis_plusMillis]
    refine Or.inl (hgoes hnext hnow (hheard.trans hi.heard) ?_)
    rw [hpassed, hd]
    exact Chimes.pass (c := w.run.circumstances) hi.chimes hi.now hi.paused hi.unheeded hrest halarms
  | dropped hnext hin => exact Or.inr (Or.inr ⟨hnext, hin⟩)

/-- What is heard of an alert while a run stays with it is on the cadence. -/
theorem follows {f : Nat → Course} (hf : ∀ k, (f k).Undisturbed (f (k + 1)))
    (hi : Chiming q id alert before n el sounds b (f 0)) (ho : (f 0).Orderly) (hq : q.IsOf alert (f 0).run.equipment)
    (hask : (f 0).run.equipment.notifier.AnswersAtOnce) {k : Nat}
    (hstays : ∀ j, j ≤ k → (f j).IsUnder n) : ∃ el sounds b, Chiming q id alert before n el sounds b (f k) := by
  induction k with
  | zero => exact ⟨el, sounds, b, hi⟩
  | succ k ih =>
    obtain ⟨el', sounds', b', hk⟩ := ih fun j hj => hstays j (Nat.le_succ_of_le hj)
    obtain ⟨b₁, hb₁, hnot⟩ := hstays (k + 1) (Nat.le_refl _)
    have hsame := equipment_of_steps hf k
    rcases hk.undisturbed (orderly_of_undisturbed hf ho k) (hsame ▸ hq) (hsame ▸ hask) (hf k) with
      ⟨hnext, -⟩ | ⟨hdone, -⟩ | ⟨hnone, -⟩
    · exact hnext
    · cases hb₁.symm.trans hdone
      cases hnot
    · cases hb₁.symm.trans hnone

/-- An alert on its own ends when its time is over, or is given up with a round that it is in. -/
theorem ends {f : Nat → Course} (hf : ∀ k, (f k).Undisturbed (f (k + 1)))
    (hi : Chiming q id alert before n 0 [] (.entering (.block id (.notifyUntil alert) [])) (f 0)) (ho : (f 0).Orderly)
    (hq : q.IsOf alert (f 0).run.equipment) (hask : (f 0).run.equipment.notifier.AnswersAtOnce) (hperiod : 0 < q.period) :
    (∃ k, (∀ j, j ≤ k → (f j).IsUnder n) ∧ (f (k + 1)).run.activity.inner n = some .done ∧ RangOut q before (f (k + 1))) ∨
      GivesUp n f := by
  have horderly := orderly_of_undisturbed hf ho
  have hequipment := equipment_of_steps hf
  refine (stays_or_ends (f := f) (P := fun k => ∃ el sounds b, Chiming q id alert before n el sounds b (f k))
      (Q := RangOut q before) ⟨0, [], _, hi⟩ (fun k ⟨el, sounds, b, hi⟩ => hi.isUnder)
      (fun k ⟨el, sounds, b, hi⟩ => hi.undisturbed (horderly k) (hequipment k ▸ hq) (hequipment k ▸ hask) (hf k))).resolve_left
    fun hall => ?_
  -- if it went on for ever it would go beyond its time, as its sounds or its intervals take time
  obtain ⟨h, htrue, hpaced⟩ := hq.isPaced hperiod
  have hstays (k : Nat) : (f k).IsUnder n := by
    obtain ⟨el, sounds, b, hk⟩ := hall k
    exact hk.isUnder
  obtain ⟨k, hbeyond⟩ := exists_beyond hf ho htrue hi.inner ⟨⟨nofun, hpaced⟩, trivial⟩ hstays (q.start.plusMillis q.total).nanos
  obtain ⟨el, sounds, b, hk⟩ := hall k
  rw [hk.now] at hbeyond
  exact Nat.not_lt.2 ((Instant.plusMillis_le_iff _ _ _).2 hk.chimes.el_le) hbeyond

end Chiming

/-- The cadence of an alert. In a run that nothing disturbs, with a notifier that answers at once, an alert without steps
plays its sound when its step becomes active, and again each time that the sound and an interval have passed, as long
as its timeout is not over; a sound that is playing then is cut, and the alert ends just then, unless it is given up
before that with the round of another alert. Its sound and its interval may not both take no time. -/
theorem alert_cadence {w₁ : Course} {id : StepId} {alert : Alert} {lasts : Nat}
    (h₁ : w₁.run.activity.inner n = some (.entering (.block id (.notifyUntil alert) []))) (ho : w₁.Orderly)
    (hp : w₁.run.signals.paused = false) (hask : w₁.run.equipment.notifier.AnswersAtOnce)
    (hsound : ∀ k, w₁.run.equipment.player k (alert.sound.effectiveUrl w₁.run.equipment.defaultSound) = .lasts lasts)
    (hpos : 0 < lasts + alert.intervalMs.toNat) (htimeout : 0 < alert.timeout.toNat)
    (hle : (alert.timeout.toNat : Int) ≤ countMax) {f : Nat → Course} (hzero : f 0 = w₁)
    (hf : ∀ k, (f k).Undisturbed (f (k + 1))) :
    (∀ k, (∀ j, j ≤ k → (f j).IsUnder n) → ∃ sounds, (alert.cadence w₁ lasts).Sounds sounds ∧
        (f k).run.heard = w₁.run.heard ++ sounds) ∧
      ((∃ k, (∀ j, j ≤ k → (f j).IsUnder n) ∧ (f (k + 1)).run.activity.inner n = some .done ∧
        RangOut (alert.cadence w₁ lasts) w₁.run.heard (f (k + 1))) ∨ GivesUp n f) := by
  subst hzero
  have hq : (alert.cadence (f 0) lasts).IsOf alert (f 0).run.equipment := ⟨rfl, hsound, rfl, rfl, htimeout, hle⟩
  have hi : Chiming (alert.cadence (f 0) lasts) id alert (f 0).run.heard n 0 []
      (.entering (.block id (.notifyUntil alert) [])) (f 0) :=
    ⟨⟨h₁, ho.aborted, hp, nofun⟩, (Instant.plusMillis_zero _).symm, (List.append_nil _).symm, .entering rfl⟩
  refine ⟨fun k hstays => ?_, hi.ends hf ho hq hask hpos⟩
  obtain ⟨el, sounds, b, hk⟩ := hi.follows hf ho hq hask hstays
  exact ⟨sounds, hk.chimes.onTime, hk.heard⟩

/-- A sound of 300 milliseconds with a second between two of them, for one and a half seconds. -/
def carillon : Course :=
  (⟨.ofSteps ⟨fun _ _ => .lasts 300, ⟨fun _ => ⟨.granted, some 0⟩, fun _ => ⟨some 0, false⟩⟩, "bell", fun _ => ⟨0⟩⟩
    [.block "carillon" (.notifyUntil { title := "Door", timeoutMs := some 1500, interval := .ofNat 1 }) []], 0, []⟩ :
    Course).goOn 1

/-- The carillon plays twice, and the second time it is cut. -/
theorem alert_cadence_carillon :
    (∀ k, (carillon.follow (fun _ => none) k).Undisturbed (carillon.follow (fun _ => none) (k + 1))) ∧
      ∃ k, (carillon.follow (fun _ => none) k).run.activity.inner 1 = some .done ∧
        (carillon.follow (fun _ => none) k).run.now = .ofMillis 1500 ∧
        (carillon.follow (fun _ => none) k).run.heard =
          [(0, .play "bell"), (300, .finish "bell"), (1300, .play "bell"), (1500, .cut "bell")] := by
  have hentered : carillon.run.activity.inner 1 = some (.entering _) := rfl
  have hf (k : Nat) : (carillon.follow (fun _ => none) k).Undisturbed (carillon.follow (fun _ => none) (k + 1)) :=
    undisturbed_follow 60 (by decide +kernel) (by decide +kernel) rfl
  obtain ⟨-, ⟨k, -, hdone, hnow, count, sounds, hrings, hcount, hheard⟩ | ⟨k, -, -, hround⟩⟩ :=
    alert_cadence hentered ⟨rfl, nofun, ⟨⟨nofun, nofun⟩, nofun⟩⟩ rfl (fun _ => ⟨rfl, rfl⟩) (fun _ => rfl)
      (by decide +kernel) (by decide) (by decide) rfl hf
  · refine ⟨hf, k + 1, hdone, hnow, ?_⟩
    obtain rfl : count = 2 := by
      have hsecond := (hcount 1).2 (by decide +kernel)
      have hthird := mt (hcount 2).1 (by decide +kernel)
      omega
    cases hrings with
    | next hfirst _ hcut =>
      cases hfirst with
      | next hnone _ hfinish =>
        cases hnone
        obtain ⟨rfl, -⟩ := hfinish.resolve_right fun hlate => absurd hlate.2 (by decide +kernel)
        obtain ⟨rfl, -⟩ := hcut.resolve_left fun htimely => absurd htimely.2 (by decide +kernel)
        rw [hheard]
        decide +kernel
  · cases hround

end Course

end StepTimer
