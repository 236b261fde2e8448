/-
Duels for the channel. Two alerts without steps and without an interval that have time left cut each
other off for ever: the sound of one is cut, so its round ends, and its next round begins at once and cuts
the sound of the other. Every turn starts a sound, and the time does not go on. Without two such runs every
quarrel ends.
-/
import StepTimer.Proofs.Run.Quarrel
import Mathlib.Logic.Function.Iterate
import Mathlib.Tactic.Choose

namespace StepTimer

namespace Activity

/-- Some moves of an activity in a row, with the devices they are made with. -/
inductive Goes (c : Circumstances) : Activity → Devices → Activity → Devices → Prop
  | refl (a : Activity) (d : Devices) : Goes c a d a d
  | head {a a₁ a₂ : Activity} {d d₁ d₂ : Devices} {events : List Event} (h : a.advance c d = some ⟨a₁, d₁, events⟩)
      (hs : Goes c a₁ d₁ a₂ d₂) : Goes c a d a₂ d₂

variable {c : Circumstances} {d d' : Devices} {m : Move} {k : Moment}

/-- What is in a step goes on as it would without the steps after it. -/
theorem goes_within {a a' : Activity} (h : Goes c a d a' d') (rest : List Step) :
    Goes c (within a rest) d (within a' rest) d' := by
  induction h with
  | refl a d => exact .refl _ d
  | @head a a₁ _ d d₁ _ events hm _ ih =>
    have hwithin : (within a rest).advance c d = some ⟨within a₁ rest, d₁, events⟩ := by
      rw [advance, not_isDone_of_advance hm, if_neg Bool.false_ne_true, hm]
      rfl
    exact .head hwithin ih

theorem advance_within_eq_none {current : Activity} {rest : List Step} (hd : current.isDone = false)
    (h : current.advance c d = none) : (within current rest).advance c d = none := by
  rw [advance, hd, if_neg Bool.false_ne_true, h]
  rfl

/-! ## A round that is cut off -/

/-- An alert without steps and without an interval, whose notification was not dismissed. -/
structure IsPlain (r : Raised) (k : Moment) : Prop where
  children : r.children = []
  interval : ¬ 0 < r.alert.intervalMs.toNat
  up : r.isOff k = false

variable {r : Raised} {t : Ticking} {url : String} {call : Call}

theorem advance_alertRound_beside {current : Activity} (hd : current.isDone = false) (h : current.advance c d = none) :
    (alertRound r t current).advance c d = advanceBeside r t current c d := by
  rw [advance, hd, if_neg Bool.false_ne_true, h]
  cases c.coin
  · exact Option.or_none
  · rfl

/-- When the sound of a round was cut the round ends, and the next one begins. -/
theorem goes_cutRound (hc : c.coin = true) (ha : c.signals.aborted = false) (hp : c.signals.paused = false)
    (hr : IsPlain r (d.moment c.now)) (ht : 0 < t.countdown.due c.now) (hcut : d.channel.isCut call.number = true)
    (hover : call.isOver c.now = false) {a' : Activity}
    (hs : Goes c (alertRound r (.start (t.countdown.settle c.now) 0 r.reportAs) (r.round c))
      { d with channel := d.channel.release call.number } a' d') :
    Goes c (alertRound r t (sound url false (.playing call))) d a' d' := by
  have hsound : (alertRound r t (sound url false (.playing call))).advance c d =
      some ⟨alertRound r t done, { d with channel := d.channel.release call.number },
        [endEvent call.url .interrupted]⟩ := by
    have hend : call.end? c.coin d.channel c.now = some .interrupted := by simp [Call.end?, hover, hcut]
    refine advance_alertRound_first hc (m := ⟨done, _, _⟩) ?_
    simp only [advance, advanceSound, hend]
    rfl
  have hround (d : Devices) :
      (alertRound r t done).advance c d = some ⟨alertTop r (t.countdown.settle c.now), d, []⟩ := by
    simp [advance, isDone, Raised.afterRound, hr.interval, hr.children]
  have htop (d' : Devices) (hd : d'.moment c.now = d.moment c.now) :
      (alertTop r (t.countdown.settle c.now)).advance c d' =
        some ⟨alertRound r (.start (t.countdown.settle c.now) 0 r.reportAs) (r.round c), d', []⟩ := by
    have hup : r.isDismissed d' = false := by
      rw [r.isDismissed_eq d' c.now, hd]
      exact hr.up
    have hexpired : (t.countdown.settle c.now).expired = false :=
      Countdown.not_expired_of_due ((t.countdown.due_settle c.now).symm ▸ ht)
    simp [advance, advanceAlertTop, ha, hp, hup, hexpired]
  exact .head hsound (.head (hround _) (.head (htop _ rfl) hs))

/-- A round that begins plays its sound, and the countdown beside it falls asleep. -/
theorem goes_freshRound {countdown : Countdown} (hc : c.coin = true) (ha : c.signals.aborted = false)
    (hp : c.signals.paused = false) (hr : IsPlain r (d.moment c.now)) (ht : 0 < countdown.due c.now)
    (hplayer : ∀ n url, (c.equipment.player n url).takesTime = true) (hn : d.channel.Numbered) :
    ∃ t' url, Goes c (alertRound r (.start countdown 0 r.reportAs) (r.round c)) d
      (alertRound r t' (sound url false (.playing (.start c.equipment.player d.channel.nextCall url c.now))))
      { d with channel := d.channel.install c.owner url } ∧ 0 < t'.countdown.due c.now ∧ ∀ coin,
        (alertRound r t' (sound url false (.playing (.start c.equipment.player d.channel.nextCall url c.now)))).advance
          { c with coin := coin } { d with channel := d.channel.install c.owner url } = none := by
  let t : Ticking := .start countdown 0 r.reportAs
  let t' : Ticking := { t with countdown := countdown.resume c.now, phase := .asleep (c.now.plusMillis t.tick.toNat) }
  let url := r.alert.sound.effectiveUrl c.equipment.defaultSound
  let call := Call.start c.equipment.player d.channel.nextCall url c.now
  let d' : Devices := { d with channel := d.channel.install c.owner url }
  have hrem : 0 < countdown.remaining := Countdown.lt_remaining_of_due (Int.le_refl 0) ht
  have hbegin : (alertRound r t (r.round c)).advance c d =
      some ⟨alertRound r t (sound url false (.playing call)), d', [.play url]⟩ := by
    have hround : r.round c = sound url false .begin := by
      unfold Raised.round
      rw [hr.children]
      rfl
    rw [hround]
    refine advance_alertRound_first hc (m := ⟨sound url false (.playing call), d', _⟩) ?_
    simp only [advance, advanceSound, Bool.false_and]
    rfl
  have hup : r.isDismissed d' = false := by
    rw [r.isDismissed_eq d' c.now]
    exact hr.up
  have hwaits (coin : Bool) : (sound url false (.playing call)).advance { c with coin := coin } d' = none := by
    have hgo : call.isOver c.now = false := Call.isOver_start (hplayer ..) c.now
    have hcut : d'.channel.isCut call.number = false := by
      have hnew := hn.isCut_install c.owner url
      rwa [← number_start c.equipment.player d.channel.nextCall url c.now] at hnew
    simp [advance, advanceSound, Call.end?, hgo, hcut]
  have hsleeps : (alertRound r t (sound url false (.playing call))).advance c d' =
      some ⟨alertRound r t' (sound url false (.playing call)), d', []⟩ := by
    have htick : t.advance c.now c.signals false = some (.goes t') := by
      simp [Ticking.advance, t, Ticking.start, ha, hp, hrem, t']
    rw [advance_alertRound_beside rfl (hwaits c.coin), advanceBeside, hup, htick]
    rfl
  refine ⟨t', url, .head hbegin (.head hsleeps (.refl _ _)), ?_, fun coin => ?_⟩
  · exact Int.lt_of_lt_of_le ht (countdown.due_le_resume c.now)
  · have hpos : 0 < t.tick.toNat := by
      simp only [t, Ticking.tick, Ticking.start, tickMs]
      omega
    have hlt : c.now.nanos < (c.now.plusMillis t.tick.toNat).nanos :=
      Nat.lt_add_of_pos_right (Nat.mul_pos hpos (by decide))
    have htick : t'.advance c.now c.signals false = none := by
      simp [Ticking.advance, t', ha, hp, hlt]
    rw [advance_alertRound_beside rfl (hwaits coin), advanceBeside, hup, htick]
    rfl

/-- A plain alert that has time left, in a round whose sound is in a call. -/
inductive Rings (k : Moment) (call : Call) : Activity → Prop
  | intro {r : Raised} {t : Ticking} (url : String) (rest : List Step) (hr : IsPlain r k)
      (ht : 0 < t.countdown.due k.now) : Rings k call (within (alertRound r t (sound url false (.playing call))) rest)

theorem call?_of_rings {a : Activity} (h : Rings k call a) : a.call? = some call := by
  cases h
  rfl

theorem isDone_of_rings {a : Activity} (h : Rings k call a) : a.isDone = false := by
  cases h
  rfl

theorem wake_of_rings {a : Activity} (h : Rings k call a) : a.wake = a := by
  cases h
  rfl

/-- An alert that rings, and whose sound was cut, rings again at once. -/
theorem goes_rings {a : Activity} (h : Rings (d.moment c.now) call a) (hc : c.coin = true)
    (ha : c.signals.aborted = false) (hp : c.signals.paused = false)
    (hplayer : ∀ n url, (c.equipment.player n url).takesTime = true) (hn : d.channel.Numbered)
    (hcut : d.channel.isCut call.number = true) (hover : call.isOver c.now = false) :
    ∃ a' url, Goes c a d a' { d with channel := (d.channel.release call.number).install c.owner url } ∧
      Rings (d.moment c.now) (.start c.equipment.player d.channel.nextCall url c.now) a' ∧ ∀ coin,
        a'.advance { c with coin := coin } { d with channel := (d.channel.release call.number).install c.owner url } =
          none := by
  cases h with
  | @intro r t _ rest hr ht =>
    have hdue : 0 < (t.countdown.settle c.now).due c.now := (t.countdown.due_settle c.now).symm ▸ ht
    obtain ⟨t', url, hgoes, ht', hrest⟩ := goes_freshRound (d := { d with channel := d.channel.release call.number })
      hc ha hp hr hdue hplayer (hn.release call.number)
    rw [d.channel.nextCall_release] at hgoes hrest
    exact ⟨_, url, goes_within (goes_cutRound hc ha hp hr ht hcut hover hgoes) rest, .intro url rest hr ht',
      fun coin => advance_within_eq_none rfl (hrest coin)⟩

end Activity

namespace Runner

open Activity (Goes)

variable {r r' : Runner} {now : Instant}

/-- What a poll leads to in which the activity of a run goes on to a place where it waits. -/
structure Led (r : Runner) (now : Instant) (x : Run) (a' : Activity) (d' : Devices) (r' : Runner) : Prop where
  self : r'.run? x.id = some { x with activity := a' }
  devices : r'.devices = d'
  equipment : r'.equipment = r.equipment
  others : ∀ other, other ≠ x.id → r'.run? other = r.run? other

theorem moves_of_goes {c : Circumstances} {a a' : Activity} {d d' : Devices} (hgoes : Goes c a d a' d') {x : Run}
    (hx : r.run? x.id = some x) (hc : r.circumstances x now true = c) (ha : x.activity = a) (hd : r.devices = d)
    (hrest : ∀ coin, a'.advance { c with coin := coin } d' = none) (hdone : a'.isDone = false) :
    ∃ r' events steps, Moves x.id now r events steps r' ∧ Led r now x a' d' r' := by
  induction hgoes generalizing r x with
  | refl a d =>
    subst ha hd hc
    refine ⟨r, [], [], .rest fun coin => ?_, hx, rfl, rfl, fun _ _ => rfl⟩
    rw [advance_eq_map r now hx hdone, Option.map_eq_none_iff]
    exact hrest coin
  | @head a a₁ _ d d₁ _ events hm _ ih =>
    have hmove : r.advance x.id true now = some (r.apply x now ⟨a₁, d₁, events⟩, events) := by
      rw [advance_eq_map r now hx (ha ▸ Activity.not_isDone_of_advance hm), hc, ha, hd, hm]
      rfl
    have hself : (r.apply x now ⟨a₁, d₁, events⟩).run? x.id = some { x with activity := a₁ } := by
      rw [run?_apply, if_pos rfl, hx]
      rfl
    have hsame : (r.apply x now ⟨a₁, d₁, events⟩).equipment = r.equipment := equipment_apply r now x _
    have hc' : (r.apply x now ⟨a₁, d₁, events⟩).circumstances { x with activity := a₁ } now true = c := by
      rw [circumstances, hsame]
      exact hc
    obtain ⟨r', events', steps, hmoves, hled⟩ := ih hself hc' rfl (devices_apply r now x _) hrest hdone
    refine ⟨r', _, _, .move true hmove hmoves, hled.self, hled.devices, hled.equipment.trans hsame, fun other hne => ?_⟩
    rw [hled.others other hne, run?_apply, if_neg hne]

/-- A run in a plain alert with time left, whose sound is in a call that is not over. -/
def Rings (r : Runner) (now : Instant) (run : RunId) (call : Call) : Prop :=
  ∃ x, r.run? run = some x ∧ x.signals = {} ∧ Activity.Rings (r.devices.moment now) call x.activity ∧
    call.isOver now = false

/-- A run that rings, and whose sound was cut, rings again with its next poll, and cuts the sound of
another run that rings. -/
theorem poll_of_rings (h : r.Apart) (hplayer : ∀ n url, (r.equipment.player n url).takesTime = true)
    {one other : RunId} (hne : other ≠ one) {call call' : Call} (hone : r.Rings now one call)
    (hother : r.Rings now other call') (hcut : r.devices.channel.isCut call.number = true) :
    ∃ r' events steps again, r.Poll one now events steps r' ∧ r'.equipment = r.equipment ∧ r'.Apart ∧
      r'.Rings now one again ∧ r'.Rings now other call' ∧ r'.devices.channel.isCut call'.number = true ∧
        r'.devices.channel.nextCall = r.devices.channel.nextCall + 1 := by
  obtain ⟨x, hx, hsignals, hrings, hover⟩ := hone
  have hid := id_of_run? r hx
  subst hid
  have hwoken : (r.wake x.id).run? x.id = some x := by
    rw [run?_wake, if_pos rfl, hx, Option.map_some, Activity.wake_of_rings hrings]
  obtain ⟨a', url, hgoes, hrings', hrest⟩ := Activity.goes_rings (c := r.circumstances x now true) hrings rfl
    (congrArg Signals.aborted hsignals) (congrArg Signals.paused hsignals) hplayer h.numbered hcut hover
  obtain ⟨r', events, steps, hmoves, hled⟩ :=
    moves_of_goes hgoes hwoken rfl rfl rfl hrest (Activity.isDone_of_rings hrings')
  have hapart : r'.Apart := Moves.induction (P := Apart) (fun _ _ _ _ hr ha => hr.advance ha) hmoves (h.wake x.id)
  have hmoment : r'.devices.moment now = r.devices.moment now := by
    rw [hled.devices]
    rfl
  obtain ⟨y, hy, hsignals', hrings'', hover'⟩ := hother
  have hsame : r'.run? other = some y := by
    rw [hled.others other hne, run?_wake, if_neg hne, hy]
  refine ⟨r', events, steps, _, hmoves, hled.equipment, hapart, ⟨_, hled.self, hsignals, hmoment ▸ hrings',
    Call.isOver_start (hplayer ..) now⟩, ⟨y, hsame, hsignals', hmoment ▸ hrings'', hover'⟩, ?_, ?_⟩
  · -- the slot is no longer that of the other run
    have hholds := hapart.holds other y hsame call' (Activity.call?_of_rings hrings'')
    refine hholds.resolve_right fun ⟨url', hcur⟩ => hne ?_
    rw [hled.devices] at hcur
    exact (congrArg Playback.owner (Option.some.inj hcur)).symm
  · rw [hled.devices]
    exact congrArg (· + 1) (r.devices.channel.nextCall_release call.number)

end Runner

/-- Whether a notifier answers at once. -/
def Notifier.IsPrompt (notifier : Notifier) : Prop :=
  ∀ call, (notifier.ask call).delayMs = some 0 ∧ (notifier.present call).delayMs = some 0

namespace World

/-- Two runs ring, and the sound of one of them was cut. -/
def Duelling (w : World) : Prop :=
  w.runner.Apart ∧ (∀ n url, (w.runner.equipment.player n url).takesTime = true) ∧
    ∃ one other call call', other ≠ one ∧ w.runner.Rings w.now one call ∧ w.runner.Rings w.now other call' ∧
      w.runner.devices.channel.isCut call.number = true

/-- The one whose sound was cut plays again, and then it is the turn of the other. -/
theorem Duelling.turn {w : World} (h : w.Duelling) : ∃ w', Turn w w' ∧ w'.Duelling ∧ w'.sounds = w.sounds + 1 := by
  obtain ⟨hapart, hplayer, one, other, call, call', hne, hone, hother, hcut⟩ := h
  obtain ⟨r', events, steps, again, hpoll, hsame, hapart', hagain, hother', hcut', hcalls⟩ :=
    Runner.poll_of_rings hapart hplayer hne hone hother hcut
  exact ⟨{ w with runner := r' }, ⟨one, events, steps, r', hpoll, rfl⟩,
    ⟨hapart', hsame ▸ hplayer, other, one, call', again, Ne.symm hne, hother', hagain, hcut'⟩, hcalls⟩

/-- Two runs that ring go on for ever: every turn starts a sound, and the time does not go on. -/
theorem Duelling.endless {w : World} (h : w.Duelling) :
    ∃ course : Nat → World, course 0 = w ∧
      ∀ n, Turn (course n) (course (n + 1)) ∧ (course n).sounds = w.sounds + n := by
  choose next hturn hduel hsounds using fun w : { w : World // w.Duelling } => w.2.turn
  let course (n : Nat) : { w : World // w.Duelling } := (fun w => ⟨next w, hduel w⟩)^[n] ⟨w, h⟩
  have hsucc (n : Nat) : (course (n + 1)).1 = next (course n) := by
    simp only [course, Function.iterate_succ_apply']
  refine ⟨fun n => (course n).1, rfl, fun n => ⟨?_, ?_⟩⟩
  · dsimp only
    rw [hsucc]
    exact hturn (course n)
  · induction n with
    | zero => rfl
    | succ n ih =>
      dsimp only at ih ⊢
      rw [hsucc, hsounds, ih]
      rfl

/-- Whether the runs can go on starting sounds at one instant. If at most one of them is endless they start only so
many before the time goes on, in whatever order their turns come and whatever is cut off. Two runs that are in plain
alerts with time left, and of which one has been cut off, may go on for ever: every turn starts a sound, the time
stands still, and neither of the alerts comes to its end. -/
theorem quarrel_ends {w : World} (hw : Reached (fun _ => True) w)
    (hplayer : ∀ n url, (w.runner.equipment.player n url).takesTime = true)
    (hshown : ∀ n ∈ w.runner.devices.board.dismissed, n < w.runner.devices.board.shown) :
    ((∀ run run', w.IsEndless run → w.IsEndless run' → run = run') →
      ∃ bound, ∀ w', AtOnce w w' → w'.sounds ≤ w.sounds + bound) ∧
    ∀ one other call call', other ≠ one → w.runner.Rings w.now one call → w.runner.Rings w.now other call' →
      w.runner.devices.channel.isCut call.number = true →
        ∃ course : Nat → World, course 0 = w ∧
          ∀ n, Turn (course n) (course (n + 1)) ∧ (course n).sounds = w.sounds + n :=
  ⟨sounds_bounded hw hplayer hshown, fun one other call call' hne hone hother hcut =>
    Duelling.endless ⟨hw.apart, hplayer, one, other, call, call', hne, hone, hother, hcut⟩⟩

/-- An alarm that rings for a second. -/
def alarmOf (id : TimerId) : Timer :=
  { id := id, name := id, mode := .alarm,
    steps := [.block "ring" (.notifyUntil { title := id, timeoutMs := some 1000 }) []] }

/-- Two alarms were started. -/
def challenge : World :=
  ((initial ⟨fun _ _ => .lasts 500, .off, "", fun _ => ⟨0⟩⟩ ⟨0⟩).perform
    (.start (alarmOf "a"))).perform (.start (alarmOf "b"))

/-- Both alarms ring. -/
def duel : World := (challenge.turned 1 6).turned 2 6

theorem ticked_duel : duel.Ticked := by
  have hfirst : Tick challenge (challenge.turned 1 6) := tick_turned (by decide +kernel)
  have hsecond : Tick (challenge.turned 1 6) duel := tick_turned (by decide +kernel)
  have hcalls : Relation.ReflTransGen Tick _ challenge :=
    .head (.call (.start (alarmOf "a"))) (.single (.call (.start (alarmOf "b"))))
  exact ⟨_, _, .tail (.tail hcalls hfirst) hsecond⟩

/-- An alarm that rings, as a run and with the number of its call. -/
def ringingAlarm (run : RunId) (id : TimerId) (call : Nat) : Run :=
  ⟨run, id, 1, {}, .within (.alertRound ⟨"ring", { title := id, timeoutMs := some 1000 }, [], none⟩
    ⟨⟨1000, some ⟨0⟩⟩, 0, some "ring", .asleep ⟨250000000⟩⟩
    (.sound "" false (.playing ⟨call, "", some ⟨500000000⟩, false⟩))) []⟩

theorem rings_ringingAlarm (id : TimerId) (call : Nat) (k : Moment) (hk : k.now = ⟨0⟩) (run : RunId) :
    Activity.Rings k ⟨call, "", some ⟨500000000⟩, false⟩ (ringingAlarm run id call).activity := by
  refine .intro "" [] ⟨rfl, ?_, rfl⟩ ?_
  · show ¬ 0 < (DurationUnit.seconds.durationMillis .zero).toNat
    decide +kernel
  · rw [hk]
    decide

theorem ringing_duel : duel.runner.Rings duel.now 1 ⟨1, "", some ⟨500000000⟩, false⟩ ∧
    duel.runner.Rings duel.now 2 ⟨2, "", some ⟨500000000⟩, false⟩ := by
  have hfirst : duel.runner.run? 1 = some (ringingAlarm 1 "a" 1) := rfl
  have hsecond : duel.runner.run? 2 = some (ringingAlarm 2 "b" 2) := rfl
  exact ⟨⟨_, hfirst, rfl, rings_ringingAlarm "a" 1 _ rfl 1, rfl⟩, ⟨_, hsecond, rfl, rings_ringingAlarm "b" 2 _ rfl 2, rfl⟩⟩

/-- A siren may wail on for ever, and the other timer has one sound to play; but two alarms never let go. -/
theorem quarrel_ends_sirenAndTea :
    (sirenAndTea.IsEndless 1 ∧ ∃ bound, ∀ w', AtOnce sirenAndTea w' → w'.sounds ≤ sirenAndTea.sounds + bound) ∧
      ∃ course : Nat → World, course 0 = duel ∧
        ∀ n, Turn (course n) (course (n + 1)) ∧ (course n).sounds = duel.sounds + n := by
  have hw : Reached (fun _ => True) sirenAndTea :=
    ⟨_, _, .tail (.head (.call (.start siren) trivial) (later_goOn 1 7 _)) (.call (.start tea) trivial)⟩
  have hsiren : sirenAndTea.runner.run? 1 = some ⟨1, "siren", 1, {}, .within (.loopPass .infinite
      [.leaf "wail" (.playSound {})] 0 (.within (.sound "" true (.playing ⟨1, "", none, false⟩)) [])) []⟩ := rfl
  have htea : sirenAndTea.runner.run? 2 = some ⟨2, "tea", 1, {}, .ready [.leaf "bell" (.playSound {})]⟩ := rfl
  have hother (run : Nat) (h : sirenAndTea.IsEndless run) : run = 1 := by
    obtain ⟨x, hx, -, -, hendless⟩ := h
    have hlt : run < 3 := hw.tied.lt_nextRun hx
    obtain rfl | rfl | rfl : run = 0 ∨ run = 1 ∨ run = 2 := by omega
    · cases hx
    · rfl
    · rw [htea] at hx
      cases hx
      cases hendless
  refine ⟨⟨⟨_, hsiren, rfl, rfl, by decide⟩, (quarrel_ends hw (fun _ _ => rfl) fun n hn => by cases hn).1
    fun run run' h h' => (hother run h).trans (hother run' h').symm⟩, ?_⟩
  exact (quarrel_ends ticked_duel.reached (fun _ _ => rfl) fun n hn => by cases hn).2 1 2 _ _ (by decide)
    ringing_duel.1 ringing_duel.2 (by decide +kernel)

/-- Not in every world are only so many sounds started at one instant, even if each sound takes time and
the notifier answers at once: two alarms cut each other off for ever. -/
theorem duel_endless :
    ¬ ∀ w, Ticked w → (∀ n url, (w.runner.equipment.player n url).takesTime = true) →
      w.runner.equipment.notifier.IsPrompt → ∀ course : Nat → World, course 0 = w →
        (∀ n, Turn (course n) (course (n + 1))) → ∃ bound, ∀ n, (course n).sounds ≤ bound := by
  intro h
  have hduel : duel.Duelling := ⟨ticked_duel.reached.apart, fun _ _ => rfl, 1, 2, _, _, by decide, ringing_duel.1,
    ringing_duel.2, by decide +kernel⟩
  obtain ⟨course, hzero, hcourse⟩ := hduel.endless
  obtain ⟨bound, hbound⟩ :=
    h duel ticked_duel (fun _ _ => rfl) (fun _ => ⟨rfl, rfl⟩) course hzero fun n => (hcourse n).1
  have hle := hbound (bound + 1)
  rw [(hcourse (bound + 1)).2] at hle
  omega

end World

end StepTimer
