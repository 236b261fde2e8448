/-
How many sounds a run may start at a moment if each is cut off at once (`volley`). A sound that is cut
takes no time, so the run goes on to the next one: through the steps up to the first that has to wait,
through the turns of a loop, and through the rounds of an alert, which has no end when neither a step
nor the interval between two rounds holds it up. With every sound that is started one less is left.
-/
import StepTimer.Proofs.Engine.Lasting
import StepTimer.Proofs.Engine.Silent
import Mathlib.Data.ENat.Basic

namespace StepTimer

/-- What may come after something, unless that has to wait. -/
def afterwards (waits : Bool) (n : ℕ∞) : ℕ∞ := if waits then 0 else n

theorem afterwards_le (waits : Bool) (n : ℕ∞) : afterwards waits n ≤ n := by
  cases waits
  · exact le_refl n
  · exact zero_le

theorem afterwards_le_afterwards {p q : Bool} {n n' : ℕ∞} (h : p = true → q = true) (hn : q = false → n' ≤ n) :
    afterwards q n' ≤ afterwards p n := by
  cases q with
  | true => exact zero_le
  | false =>
    cases p with
    | true => cases h rfl
    | false => exact hn rfl

theorem afterwards_mono {p q : Bool} (n : ℕ∞) (h : p = true → q = true) : afterwards q n ≤ afterwards p n :=
  afterwards_le_afterwards h fun _ => le_refl n

@[simp] theorem afterwards_zero (waits : Bool) : afterwards waits 0 = 0 := ite_self 0

/-! ## Steps -/

namespace RepeatCount

/-- The passes of a loop that are left after so many. -/
def left : RepeatCount → Nat → ℕ∞
  | infinite, _ => ⊤
  | times n, passes => (n.toNat - passes : Nat)

/-- The passes that may begin at one instant after so many. -/
def turns (count : RepeatCount) (children : List Step) (passes : Nat) : ℕ∞ :=
  if Step.takesTimeIn children then (if count.exceeds passes then 1 else 0) else count.left passes

theorem left_of_exceeds {count : RepeatCount} {passes : Nat} (h : count.exceeds passes = true) :
    count.left passes = count.left (passes + 1) + 1 := by
  cases count with
  | infinite => rfl
  | times n =>
    have hlt : passes < n.toNat := of_decide_eq_true h
    have hsub : n.toNat - passes = n.toNat - (passes + 1) + 1 := by omega
    rw [left, left, hsub]
    norm_cast

end RepeatCount

/-- The rounds of an alert that may begin at one instant. -/
def Alert.rounds (alert : Alert) (children : List Step) : ℕ∞ :=
  if 0 < alert.intervalMs.toNat ∨ Step.takesTimeIn children = true then 1 else ⊤

namespace Step

mutual

/-- The sounds that a step may start at the instant at which it begins, if each is cut off at once. -/
def volley : Step → ℕ∞
  | leaf _ (.playSound _) => 1
  | leaf _ (.playSoundUntil _) => 1
  | leaf _ _ => 0
  | block _ (.notifyUntil alert) children =>
    if 0 < alert.timeout.toNat then alert.rounds children * if children.isEmpty then 1 else volleyOf children else 0
  | block _ (.loop count) children => count.turns children 0 * volleyOf children

/-- The sounds that the steps of a list may start at one instant: those after a step that takes time
have to wait. -/
def volleyOf : List Step → ℕ∞
  | [] => 0
  | s :: rest => volley s + afterwards (takesTime s) (volleyOf rest)

end

end Step

namespace Raised

/-- The sounds that a round of an alert may start at one instant. -/
def roundVolley (r : Raised) : ℕ∞ := if r.children.isEmpty then 1 else Step.volleyOf r.children

/-- The sounds that an alert with time left may start at one instant. -/
def volley (r : Raised) : ℕ∞ := r.alert.rounds r.children * r.roundVolley

theorem roundVolley_le (r : Raised) : r.roundVolley ≤ r.volley := by
  unfold volley Alert.rounds
  split
  · rw [one_mul]
  · rcases eq_or_ne r.roundVolley 0 with hz | hz
    · rw [hz]
      exact zero_le
    · rw [ENat.top_mul hz]
      exact le_top

/-- The sounds that an alert may start at a moment: none after its dismissal, and those of one round when its time
is over but that has not been seen. -/
def volleyIn (r : Raised) (k : Moment) (hasTime : Bool) : ℕ∞ :=
  if r.isOff k then 0 else if hasTime then r.volley else r.roundVolley

theorem volleyIn_le (r : Raised) (k : Moment) (hasTime : Bool) : r.volleyIn k hasTime ≤ r.volley := by
  unfold volleyIn
  split
  · exact zero_le
  · split
    · exact le_refl _
    · exact r.roundVolley_le

theorem volleyIn_mono (r : Raised) (k : Moment) {p q : Bool} (h : p = true → q = true) :
    r.volleyIn k p ≤ r.volleyIn k q := by
  unfold volleyIn
  split
  · exact le_refl _
  · cases p with
    | true => rw [h rfl]
    | false =>
      rw [if_neg Bool.false_ne_true]
      split
      · exact r.roundVolley_le
      · exact le_refl _

/-- Nobody dismisses what is not shown. -/
theorem volleyIn_le_of_shown (r : Raised) (k : Moment) (hasTime : Bool) :
    r.volleyIn k hasTime ≤ Raised.volleyIn { r with notice := none } k hasTime := by
  rw [volleyIn, volleyIn, if_neg (c := isOff { r with notice := none } k = true) Bool.false_ne_true]
  split
  · exact zero_le
  · exact le_refl _

theorem volleyIn_of_isOff {r : Raised} {k : Moment} (h : r.isOff k = true) (hasTime : Bool) :
    r.volleyIn k hasTime = 0 := if_pos h

/-- A round is followed by others at the same instant only if nothing in it or after it takes time. -/
theorem roundVolley_add_le (r : Raised) :
    r.roundVolley + afterwards (Step.takesTimeIn r.children || decide (0 < r.alert.intervalMs.toNat)) r.volley ≤
      r.volley := by
  unfold volley Alert.rounds
  by_cases h : 0 < r.alert.intervalMs.toNat ∨ Step.takesTimeIn r.children = true
  · have hwaits : (Step.takesTimeIn r.children || decide (0 < r.alert.intervalMs.toNat)) = true := by
      simpa [or_comm] using h
    rw [if_pos h, hwaits]
    simp [afterwards]
  · rw [if_neg h]
    rcases eq_or_ne r.roundVolley 0 with hz | hz
    · simp [hz, afterwards]
    · rw [ENat.top_mul hz]
      exact le_top

/-- Whether an alert is over after its round: it was dismissed, or no time is left. -/
def isOver (r : Raised) (k : Moment) (t : Ticking) : Bool := r.isOff k || decide (t.left k.now ≤ 0)

theorem isOver_iff {r : Raised} {k : Moment} {t : Ticking} :
    r.isOver k t = true ↔ r.isOff k = true ∨ t.left k.now ≤ 0 := by
  rw [isOver, Bool.or_eq_true, decide_eq_true_eq]

/-- An alert that is over has no time left. -/
theorem due_le_of_isOver {r : Raised} {k : Moment} {t : Ticking} (h : r.isOver k t = true) :
    r.isOff k = true ∨ t.countdown.due k.now ≤ 0 :=
  (isOver_iff.1 h).imp_right fun hle => Int.not_lt.1 fun hdue => Int.not_lt.2 hle (t.left_pos_of_due hdue)

end Raised

/-! ## Activities -/

namespace Activity

variable {c : Circumstances} {d : Devices} {m : Move} {k : Moment}

/-- The sounds that an activity may start at a moment if each is cut off at once, unless it is aborted or
paused. -/
def volley (k : Moment) : Activity → ℕ∞
  | done => 0
  | ready steps => Step.volleyOf steps
  | held steps => Step.volleyOf steps
  | within current rest => current.volley k + afterwards (current.lasts k) (Step.volleyOf rest)
  | entering s => s.volley
  | counting _ _ => 0
  | sound _ _ (.playing _) => 0
  | sound _ _ _ => 1
  | notifying _ _ _ => 0
  | announcing id alert children countdown phase =>
    afterwards (!phase.isDue k.now || countdown.expired)
      (Raised.volleyIn ⟨id, alert, children, none⟩ k (0 < countdown.due k.now))
  | alertTop r countdown => afterwards countdown.expired (r.volleyIn k (0 < countdown.due k.now))
  | alertHeld r countdown => afterwards countdown.expired (r.volleyIn k (0 < countdown.due k.now))
  | alertRound r t current =>
    current.volley k + afterwards (r.isOver k t ||
      (current.lasts k || decide (0 < r.alert.intervalMs.toNat)) && decide (t.floor ≤ 0)) r.volley
  | alertGap r t => afterwards (t.floor < t.left k.now) (r.volleyIn k (0 < t.left k.now))
  | loopTop count children passes => count.turns children passes * Step.volleyOf children
  | loopPass count children passes current =>
    current.volley k + afterwards (current.lasts k) (count.turns children (passes + 1) * Step.volleyOf children)
  | loopYield count children passes => count.turns children passes * Step.volleyOf children
  | parked => 0

attribute [local simp] volley

theorem volley_wake (a : Activity) : a.wake.volley k = a.volley k := by
  induction a with
  | within current rest ih => simp only [wake, volley, ih, lasts_wake]
  | alertRound r t current ih => simp only [wake, volley, ih, lasts_wake]
  | loopPass count children passes current ih => simp only [wake, volley, ih, lasts_wake]
  | _ => rfl

theorem volley_beginStep (s : Step) : (beginStep c d s).next.volley k ≤ s.volley := by
  cases s with
  | leaf id action => cases action <;> simp [beginStep, beginAction, beginWait, Step.volley]
  | block id frame children =>
    cases frame with
    | notifyUntil alert =>
      by_cases htimeout : 0 < alert.timeout.toNat
      · rw [Step.volley, if_pos htimeout]
        exact (afterwards_le _ _).trans (Raised.volleyIn_le ..)
      · -- the time is over before it begins
        have hexpired : (Countdown.start alert.timeout c.now).expired = true := by
          refine decide_eq_true ?_
          simp only [Countdown.start, countMax]
          omega
        simp only [beginStep, beginBlock, volley, hexpired, Bool.or_true, afterwards, if_true]
        exact zero_le
    | loop count =>
      rcases beginLoop_cases id count children c d with h | ⟨-, ⟨-, h⟩ | ⟨-, h⟩⟩ <;> rw [h]
      · exact le_refl _
      · exact zero_le
      · exact zero_le

theorem volley_round (r : Raised) (c : Circumstances) : (r.round c).volley k = r.roundVolley := by
  unfold Raised.round Raised.roundVolley
  split <;> rfl

/-- Another pass of a loop is one of the turns. -/
theorem volley_pass {count : RepeatCount} (children : List Step) {passes : Nat} (h : count.exceeds passes = true) :
    (loopPass count children passes (ready children)).volley k ≤ (loopTop count children passes).volley k := by
  simp only [volley, lasts, RepeatCount.turns, RepeatCount.left_of_exceeds h]
  cases Step.takesTimeIn children with
  | true => simp [afterwards, h]
  | false =>
    simp only [afterwards, Bool.false_eq_true, if_false]
    rw [add_mul, one_mul, add_comm]

/-- What comes after a round starts sounds at the same instant only if the alert has time left and was not
dismissed, and no interval holds it up. -/
theorem volley_afterRound (r : Raised) (countdown : Countdown) (d' : Devices) (events : List Event) :
    (r.afterRound countdown c d' events).next.volley (d.moment c.now) ≤
      afterwards (r.isOff (d.moment c.now) || decide (countdown.due c.now ≤ 0) ||
        decide (0 < r.alert.intervalMs.toNat)) r.volley := by
  obtain ⟨-, settled, hdue, hrem, hnext⟩ := afterRound_due r countdown c d' events
  cases hoff : r.isOff (d.moment c.now) with
  | true =>
    rcases hnext with ⟨-, -, floor, -, hnext⟩ | ⟨-, hnext⟩ <;> simp [hnext, Raised.volleyIn_of_isOff hoff, afterwards]
  | false =>
    rcases hnext with ⟨hpos, hgo, floor, rfl, hnext⟩ | ⟨hover, hnext⟩
    · -- the gap takes time
      have hlt : max (settled.remaining - min (r.alert.intervalMs.toNat : Int) countMax) 0 < settled.due c.now := by
        have hrempos : 0 < settled.remaining := by simpa [Countdown.expired] using hgo
        simp only [countMax]
        omega
      have hwaits : (Ticking.start settled (settled.remaining - min (r.alert.intervalMs.toNat : Int) countMax)
          (some r.id)).floor < (Ticking.start settled (settled.remaining - min (r.alert.intervalMs.toNat : Int) countMax)
          (some r.id)).left c.now := hlt
      rw [hnext, volley, d.moment_now, decide_eq_true hwaits]
      exact zero_le
    · rw [hnext, volley, d.moment_now]
      refine afterwards_le_afterwards (fun hw => ?_) fun _ => r.volleyIn_le ..
      simp only [Bool.false_or, Bool.or_eq_true, decide_eq_true_eq] at hw
      rcases hw with hdue | hpos
      · exact decide_eq_true (hrem.trans_le hdue)
      · exact hover hpos

/-- The countdown beside a round starts no sound, and leaves no more of them to start. -/
theorem volley_beside {r : Raised} {t : Ticking} {current : Activity} (ha : c.signals.aborted = false)
    (h : advanceBeside r t current c d = some m) :
    m.next.volley (d.moment c.now) + m.devices.channel.nextCall ≤
      (alertRound r t current).volley (d.moment c.now) + d.channel.nextCall := by
  rcases beside_due h with ⟨rfl, hcause⟩ | ⟨t', hnext, hd, hfloor, -, -, -, hleft⟩
  · rw [(afterRound_call r t.countdown current.dropEvents).2]
    refine add_le_add ?_ (Nat.cast_le.2 (Nat.le_of_eq (d.channel.nextCall_stopOwnedBy c.owner)))
    rw [ha] at hcause
    have hcause := hcause.resolve_left (by simp)
    refine (volley_afterRound r t.countdown (c.silence d) current.dropEvents).trans ?_
    refine le_add_left (afterwards_mono _ fun hw => ?_)
    simp only [Bool.or_eq_true, Bool.and_eq_true, decide_eq_true_eq] at hw ⊢
    rcases hw with hover | ⟨hlasts | hpos, hfloor⟩
    · exact .inl (Raised.due_le_of_isOver hover)
    · -- the round has to wait, so it is the alert that ends
      refine .inl (hcause.symm.imp_right fun hle => Int.not_lt.1 fun hdue => ?_)
      exact absurd (Countdown.lt_remaining_of_due (Int.le_refl 0) hdue) (Int.not_lt.2 (hle.trans hfloor))
    · exact .inr hpos
  · rw [hnext, hd]
    refine add_le_add (add_le_add (le_refl _) (afterwards_mono _ fun hw => ?_)) (le_refl _)
    simp only [Bool.or_eq_true, Bool.and_eq_true, decide_eq_true_eq, Raised.isOver_iff, hfloor] at hw ⊢
    exact hw.imp_left fun hover => hover.imp_right fun hle =>
      Int.not_lt.1 fun hpos => absurd (hleft hpos) (Int.not_lt.2 hle)

theorem volley_gap {r : Raised} {t : Ticking} (ha : c.signals.aborted = false)
    (h : (alertGap r t).advance c d = some m) :
    m.next.volley (d.moment c.now) + m.devices.channel.nextCall ≤
      (alertGap r t).volley (d.moment c.now) + d.channel.nextCall := by
  obtain ⟨hd, ⟨hnext, hcause⟩ | ⟨t', hnext, hfloor, -, -, hle, hleft⟩⟩ := gap_due h <;> rw [hnext, hd] <;>
    refine add_le_add ?_ (le_refl _)
  · cases hoff : r.isOff (d.moment c.now) with
    | true => simp [Raised.volleyIn_of_isOff hoff]
    | false =>
      rw [ha, hoff] at hcause
      have hend : t.countdown.remaining ≤ t.floor := by simpa using hcause
      refine afterwards_le_afterwards (fun hw => ?_) fun _ => r.volleyIn_mono _ fun hdue => ?_
      · by_cases hfloor : 0 ≤ t.floor
        · exact absurd (Ticking.lt_remaining_of_left hfloor (of_decide_eq_true hw)) (Int.not_lt.2 hend)
        · exact decide_eq_true (by omega)
      · exact decide_eq_true (t.left_pos_of_due (of_decide_eq_true hdue))
  · refine afterwards_le_afterwards (fun hw => ?_) fun _ => r.volleyIn_mono _ fun hpos => ?_
    · exact decide_eq_true (hfloor ▸ Int.lt_of_lt_of_le (of_decide_eq_true hw) hle)
    · exact decide_eq_true (hleft (of_decide_eq_true hpos))

/-- With every sound that a run starts, one less is left of its volley. -/
theorem volley_advance {a : Activity} (ha : c.signals.aborted = false) (hp : c.signals.paused = false)
    (hshown : ∀ n ∈ d.board.dismissed, n < d.board.shown) (h : a.advance c d = some m) :
    m.next.volley (d.moment c.now) + m.devices.channel.nextCall ≤ a.volley (d.moment c.now) + d.channel.nextCall := by
  have hlasts {a : Activity} {m : Move} (h : a.advance c d = some m) (hl : a.lasts (d.moment c.now) = true) :
      m.next.lasts (d.moment c.now) = true := lasts_advance ha hshown hl h
  induction a generalizing m with
  | done => cases h
  | ready steps =>
    rcases advance_ready h with rfl | ⟨-, rfl | ⟨s, rest, rfl, rfl⟩⟩
    · exact add_le_add (zero_le) (le_refl _)
    · exact le_refl _
    · exact le_refl _
  | held steps =>
    rcases advance_held h with rfl | ⟨-, s, rest, rfl, rfl⟩
    · exact add_le_add (zero_le) (le_refl _)
    · exact le_refl _
  | within current rest ih =>
    rcases advance_within h with ⟨hd, rfl⟩ | ⟨m', hm', rfl⟩
    · cases current with
      | done => simp [lasts, afterwards]
      | _ => cases hd
    · simp only [volley, add_right_comm _ (afterwards _ _)]
      exact add_le_add (ih hm') (afterwards_mono _ (hlasts hm'))
  | entering s =>
    cases h
    rw [(beginStep_call (c := c) (d := d) s).2]
    exact add_le_add (volley_beginStep s) (le_refl _)
  | counting id t =>
    obtain ⟨hd, ⟨hnext, -⟩ | ⟨t', hnext, -⟩⟩ := counting_due h <;> rw [hnext, hd] <;> exact le_refl _
  | sound url replays phase =>
    rcases advance_sound h with ⟨rfl, rfl⟩ | ⟨rfl, rfl⟩ | ⟨rfl, rfl⟩ | ⟨call, how, rfl, -, rfl⟩
    · rw [hp]
      exact le_refl _
    · exact le_refl _
    · rw [if_neg (by simp [ha])]
      simp [beginSound, Channel.install, add_comm]
    · simp [hp, d.channel.nextCall_release]
  | notifying n phase grace =>
    rcases advance_notifying h with ⟨due, delay, fails, -, rfl⟩ | ⟨hnext, hd, -⟩
    · exact le_refl _
    · rw [hnext, hd]
      exact le_refl _
  | announcing id alert children countdown phase =>
    have hdue : phase.isDue c.now = true := by
      obtain ⟨nm, hnm, -⟩ := Option.map_eq_some_iff.1 h
      exact NoticePhase.isDue_of_advance hnm
    have hexpired (b : Bool) (hw : (!phase.isDue (d.moment c.now).now || b) = true) : b = true := by
      simpa only [d.moment_now, hdue, Bool.not_true, Bool.false_or] using hw
    rcases advance_announcing h with ⟨due, delay, fails, -, rfl⟩ | ⟨notice, hnext, hd, -⟩
    · refine add_le_add (afterwards_mono _ fun hw => ?_) (le_refl _)
      rw [hexpired _ hw, Bool.or_true]
    · rw [hnext, hd]
      exact add_le_add (afterwards_le_afterwards (hexpired _) fun _ => Raised.volleyIn_le_of_shown ..) (le_refl _)
  | alertTop r countdown =>
    cases h
    rcases alertTop_due r countdown c d with ⟨h, -⟩ | ⟨⟨-, hoff, hgo⟩, h | h⟩ <;> rw [h]
    · exact add_le_add zero_le (Nat.cast_le.2 (Nat.le_of_eq (d.channel.nextCall_stopOwnedBy c.owner)))
    · refine add_le_add (afterwards_le_afterwards (fun hw => ?_) fun _ => le_refl _) (le_refl _)
      rw [hgo] at hw
      cases hw
    · refine add_le_add ?_ (le_refl _)
      have hround := r.roundVolley_add_le
      simp only [volley, volley_round, lasts_round, hgo, Raised.volleyIn, Raised.isOver, hoff, Ticking.left,
        Ticking.start, d.moment_now]
      by_cases hpos : 0 < countdown.due c.now
      · simpa [afterwards, hpos, Int.not_le.2 hpos] using hround
      · simp [afterwards, hpos, Int.not_lt.1 hpos]
  | alertHeld r countdown =>
    rw [advance_alertHeld h]
    exact le_refl _
  | alertRound r t current ih =>
    rcases advance_alertRound h with ⟨hd, rfl⟩ | ⟨m', hm', rfl⟩ | h
    · rw [(afterRound_call r t.countdown []).2]
      refine add_le_add ((volley_afterRound r t.countdown d []).trans ?_) (le_refl _)
      refine le_add_left (afterwards_mono _ fun hw => ?_)
      have hover : current.lasts (d.moment c.now) = false := by
        cases current with
        | done => rfl
        | _ => cases hd
      simp only [hover, Bool.or_eq_true, Bool.and_eq_true, decide_eq_true_eq, Bool.false_eq_true, false_or] at hw ⊢
      exact hw.imp Raised.due_le_of_isOver And.left
    · simp only [volley, add_right_comm _ (afterwards _ _)]
      refine add_le_add (ih hm') (afterwards_mono _ fun hw => ?_)
      simp only [Bool.and_eq_true, Bool.or_eq_true] at hw ⊢
      exact hw.imp_right fun hand => hand.imp_left fun hor => hor.imp_left (hlasts hm')
    · exact volley_beside ha h
  | alertGap r t => exact volley_gap ha h
  | loopTop count children passes =>
    cases h
    rw [loopTop_exceeds children ha]
    split
    · rename_i hmore
      exact add_le_add (volley_pass children hmore) (le_refl _)
    · exact add_le_add zero_le (le_refl _)
  | loopPass count children passes current ih =>
    rcases advance_loopPass h with ⟨hd, rfl⟩ | ⟨m', hm', rfl⟩
    · cases current with
      | done => simp [lasts, afterwards]
      | _ => cases hd
    · simp only [volley, add_right_comm _ (afterwards _ _)]
      exact add_le_add (ih hm') (afterwards_mono _ (hlasts hm'))
  | loopYield count children passes => cases h
  | parked =>
    rw [advance_parked h]
    exact le_refl _

/-! ### The signals -/

/-- The sounds that a run may start at a moment if each is cut off at once. One that is paused or aborted
starts at most the sound that it is already on the way to. -/
def shots (k : Moment) (signals : Signals) (a : Activity) : ℕ∞ :=
  if signals.aborted || signals.paused then if a.isSilent signals then 0 else 1 else a.volley k

theorem shots_wake_le (k : Moment) (signals : Signals) (a : Activity) : a.wake.shots k signals ≤ a.shots k signals := by
  unfold shots
  rw [volley_wake]
  cases hs : a.isSilent signals with
  | true =>
    rw [isSilent_wake hs]
  | false =>
    split
    · split <;> simp
    · exact le_refl _

/-- With every sound that a run starts, one less is left. -/
theorem shots_advance {a : Activity} (hshown : ∀ n ∈ d.board.dismissed, n < d.board.shown)
    (h : a.advance c d = some m) :
    m.next.shots (d.moment c.now) c.signals + m.devices.channel.nextCall ≤
      a.shots (d.moment c.now) c.signals + d.channel.nextCall := by
  unfold shots
  by_cases hheld : (c.signals.aborted || c.signals.paused) = true
  · rw [if_pos hheld, if_pos hheld]
    cases hs : a.isSilent c.signals with
    | true =>
      obtain ⟨hsilent, -, hcalls⟩ := isSilent_advance (by simpa using hheld) hs h
      rw [hsilent, hcalls]
    | false =>
      rcases (advance_call h).nextCall_cases with hcalls | ⟨⟨call, hcall⟩, hcalls⟩
      · rw [hcalls]
        refine add_le_add ?_ (le_refl _)
        split <;> simp
      · rw [isSilent_of_call? hcall, hcalls]
        simp [add_comm]
  · rw [if_neg hheld, if_neg hheld]
    simp only [Bool.or_eq_true, not_or, Bool.not_eq_true] at hheld
    exact volley_advance hheld.1 hheld.2 hshown h

end Activity

end StepTimer
