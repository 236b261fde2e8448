/-
What a run costs that nothing disturbs. The cost of an action depends on the time it starts at and on
how often the player and the notifier were called before it (`Meter`), and the costs of a list are
those of its steps, each from where the one before it left the meter. For the action under way the
meter at its end is known at every moment (`Activity.settled`); with the steps ahead it comes to the
same in every state of the run.
-/
import StepTimer.Proofs.Engine.Countdowns
import StepTimer.Proofs.Solo.Unrolled
import StepTimer.Proofs.Time.Occurrence
import Mathlib.Algebra.GroupWithZero.Nat

namespace StepTimer

/-! ## Costs -/

/-- What the cost of an action depends on: the time, the number of the next call to the player, and the
number of calls to the notifier. -/
structure Meter where
  now : Instant
  plays : Nat
  asked : Nat

namespace Equipment

/-- The milliseconds of the sound of an address in the call of a number until it is over or fails. -/
def soundMs (e : Equipment) (n : Nat) (url : String) : Nat :=
  match e.player n url with
  | .lasts ms => ms
  | .endless => 0
  | .fails ms => ms

/-- The milliseconds until a notification is up, or is given up. -/
def showMs (e : Equipment) (n : Nat) : Nat := min ((e.notifier.present n).delayMs.getD 2000) 2000

/-- Whether a question for permission is granted. -/
def grants (e : Equipment) (n : Nat) : Bool := (e.notifier.ask n).permission = .granted

/-- Whether the notifier answers every question for permission at once. -/
def AsksAtOnce (e : Equipment) : Prop := ∀ n, (e.notifier.ask n).delayMs = some 0

end Equipment

namespace Action

/-- The milliseconds that an action takes. -/
def cost (e : Equipment) (m : Meter) : Action → Nat
  | wait amount unit => (unit.durationMillis amount).toNat
  | waitUntil time half => millisUntilClock (sanitizeTime time "12:00") half (e.wall m.now)
  | playSound spec => e.soundMs m.plays (spec.effectiveUrl e.defaultSound)
  | playSoundUntil spec => e.soundMs m.plays (spec.effectiveUrl e.defaultSound)
  | notify _ _ => if e.grants m.asked then e.showMs (m.asked + 1) else 0
  | unknown => 0

/-- The calls to the player that an action makes. -/
def plays : Action → Nat
  | playSound _ => 1
  | playSoundUntil _ => 1
  | _ => 0

/-- The calls to the notifier that an action makes. -/
def asks (e : Equipment) (m : Meter) : Action → Nat
  | notify _ _ => if e.grants m.asked then 2 else 1
  | _ => 0

/-- Whether an action comes to its end by itself: a wait is not longer than a countdown can count, and
a sound is not endless. -/
def Ends (e : Equipment) : Action → Prop
  | wait amount unit => ((unit.durationMillis amount).toNat : Int) ≤ countMax
  | playSound spec => ∀ n, e.player n (spec.effectiveUrl e.defaultSound) ≠ .endless
  | playSoundUntil spec => ∀ n, e.player n (spec.effectiveUrl e.defaultSound) ≠ .endless
  | _ => True

end Action

namespace Meter

/-- The milliseconds that a step takes by itself. -/
def cost (e : Equipment) (m : Meter) : Step → Nat
  | .leaf _ action => action.cost e m
  | .block _ _ _ => 0

/-- The meter after a step by itself. -/
def after (e : Equipment) (m : Meter) : Step → Meter
  | .leaf _ action => ⟨m.now.plusMillis (action.cost e m), m.plays + action.plays, m.asked + action.asks e m⟩
  | .block _ _ _ => m

/-- The milliseconds of the steps of a list, each from where the one before it left the meter. -/
def costs (e : Equipment) (m : Meter) : List Step → List Nat
  | [] => []
  | s :: rest => m.cost e s :: (m.after e s).costs e rest

/-- The meter after a list of steps. -/
def final (e : Equipment) (m : Meter) (steps : List Step) : Meter := steps.foldl (after e) m

variable {e : Equipment}

theorem now_after (m : Meter) (s : Step) : (m.after e s).now = m.now.plusMillis (m.cost e s) := by
  cases s with
  | leaf id action => rfl
  | block id frame children => exact (Instant.plusMillis_zero _).symm

theorem final_cons (m : Meter) (s : Step) (rest : List Step) : m.final e (s :: rest) = (m.after e s).final e rest := rfl

/-- The time after a list of steps is the sum of its costs. -/
theorem now_final (m : Meter) (steps : List Step) : (m.final e steps).now = m.now.plusMillis (m.costs e steps).sum := by
  induction steps generalizing m with
  | nil => exact (Instant.plusMillis_zero _).symm
  | cons s rest ih => rw [final_cons, ih, now_after, Instant.plusMillis_plusMillis, costs, List.sum_cons]

end Meter

/-- The meter at an instant. -/
def Devices.meter (d : Devices) (now : Instant) : Meter := ⟨now, d.channel.nextCall, d.board.calls⟩

/-- The sooner of the instant at which a call returns, if it does, and the instant at which it is
given up. -/
def Instant.sooner (due : Option Instant) (grace : Instant) : Instant :=
  match due with
  | none => grace
  | some t => if t.nanos ≤ grace.nanos then t else grace

theorem Instant.sooner_plusMillis (now : Instant) (delay : Option Nat) (j : Nat) :
    sooner (delay.map now.plusMillis) (now.plusMillis j) = now.plusMillis (min (delay.getD j) j) := by
  cases delay with
  | none => simp [sooner]
  | some k =>
    simp only [sooner, Option.map_some, plusMillis_le_iff, Option.getD_some]
    split
    · rw [Nat.min_eq_left ‹_›]
    · rw [Nat.min_eq_right (by omega)]

namespace Activity

/-! ## The action under way -/

/-- The meter at the end of the action under way. -/
def settled (e : Equipment) (m : Meter) : Activity → Meter
  | entering s => m.after e s
  | counting _ t => { m with now := m.now.plusMillis (t.countdown.left m.now).toNat }
  | sound _ _ (.playing call) => { m with now := call.ends.getD m.now }
  | sound url _ _ => ⟨m.now.plusMillis (e.soundMs m.plays url), m.plays + 1, m.asked⟩
  | notifying _ (.asking _ permission) _ =>
    if permission = .granted then ⟨m.now.plusMillis (e.showMs m.asked), m.plays, m.asked + 1⟩ else m
  | notifying _ (.presenting due _) grace => { m with now := Instant.sooner due grace }
  | _ => m

/-- Whether the action under way keeps to whole milliseconds, and its call has not been cut. -/
def IsTimely (now : Instant) (ch : Channel) : Activity → Prop
  | counting _ t => t.InOrder now ∧ t.floor = 0
  | sound _ _ (.playing call) => (∃ k, call.ends = some (now.plusMillis k)) ∧ ch.isCut call.number = false
  | notifying _ (.asking due _) grace => due = some now ∧ grace = now.plusMillis 2000
  | notifying _ (.presenting due _) grace =>
    ∃ (delay : Option Nat) (j : Nat), due = delay.map now.plusMillis ∧ grace = now.plusMillis j
  | _ => True

variable {c : Circumstances} {d : Devices} {m : Move}

/-- What a move of an action keeps: the meter at its end, and that it is timely. -/
structure Keeps (c : Circumstances) (d : Devices) (a : Activity) (m : Move) : Prop where
  settled : m.next.settled c.equipment (m.devices.meter c.now) = a.settled c.equipment (d.meter c.now)
  timely : m.next.IsTimely c.now m.devices.channel
  channel : m.devices.channel.InOrder

-- for these two the meter at the end does not depend on the time; said of any two instants, since an
-- instant that is compared with its own sum would be counted through
theorem settled_playing {e : Equipment} {url : String} {replays : Bool} {call : Call} {t : Instant}
    (h : call.ends = some t) (now : Instant) :
    (sound url replays (.playing call)).settled e (d.meter now) = ⟨t, d.channel.nextCall, d.board.calls⟩ := by
  simp only [settled, Devices.meter, h, Option.getD_some]

theorem settled_presenting (e : Equipment) (n : Notification) (due : Option Instant) (fails : Bool) (grace : Instant)
    (d : Devices) (now : Instant) :
    (notifying n (.presenting due fails) grace).settled e (d.meter now) =
      ⟨Instant.sooner due grace, d.channel.nextCall, d.board.calls⟩ := rfl

theorem settled_of_isBetween {a : Activity} (h : a.isBetween = true) (e : Equipment) (m : Meter) : a.settled e m = m := by
  cases a with
  | done => rfl
  | ready steps => rfl
  | held steps => rfl
  | loopTop count children passes => rfl
  | loopYield count children passes => rfl
  | _ => cases h

theorem isTimely_of_isBetween {a : Activity} (h : a.isBetween = true) (now : Instant) (ch : Channel) : a.IsTimely now ch := by
  cases a with
  | done => trivial
  | ready steps => trivial
  | held steps => trivial
  | loopTop count children passes => trivial
  | loopYield count children passes => trivial
  | _ => cases h

theorem keeps_beginWait (id : StepId) {total : UInt64} (hle : (total.toNat : Int) ≤ countMax) (hch : d.channel.InOrder)
    {a : Activity} (ha : a.settled c.equipment (d.meter c.now) = { d.meter c.now with now := c.now.plusMillis total.toNat }) :
    Keeps c d a (beginWait id total c d) := by
  have hat := Countdown.isAt_start total c.now
  refine ⟨?_, ⟨Ticking.inOrder_start hat hat.nonneg _, rfl⟩, hch⟩
  rw [ha]
  show ({ d.meter c.now with now := c.now.plusMillis ((Countdown.start total c.now).left c.now).toNat } : Meter) = _
  rw [Countdown.left_start hle]
  rfl

theorem keeps_beginStep {s : Step} (hs : s.Unrolls (Action.Ends c.equipment)) (hask : c.equipment.AsksAtOnce)
    (hch : d.channel.InOrder) : Keeps c d (entering s) (beginStep c d s) := by
  cases s with
  | leaf id action =>
    cases action with
    | wait amount unit => exact keeps_beginWait id hs hch rfl
    | waitUntil time half =>
      have hle := millisUntilClock_le (sanitizeTime time "12:00") half (c.equipment.wall c.now)
      have htotal : (UInt64.ofNat (millisUntilClock (sanitizeTime time "12:00") half (c.equipment.wall c.now))).toNat =
          millisUntilClock (sanitizeTime time "12:00") half (c.equipment.wall c.now) := by
        rw [UInt64.toNat_ofNat']
        simp only [WallTime.dayMillis] at hle
        omega
      refine keeps_beginWait id ?_ hch ?_
      · rw [htotal]
        simp only [WallTime.dayMillis] at hle
        simp only [countMax]
        omega
      · rw [htotal]
        rfl
    | playSound spec => exact ⟨rfl, trivial, hch⟩
    | playSoundUntil spec => exact ⟨rfl, trivial, hch⟩
    | notify title body =>
      have hdue : (c.equipment.notifier.ask d.board.calls).delayMs.map c.now.plusMillis = some c.now := by
        rw [hask]
        exact congrArg some c.now.plusMillis_zero
      refine ⟨?_, ⟨hdue, rfl⟩, hch⟩
      by_cases hg : (c.equipment.notifier.ask d.board.calls).permission = .granted
      · simp [beginStep, beginAction, Circumstances.ask, settled, Meter.after, Action.cost, Action.plays, Action.asks,
          Equipment.grants, Devices.meter, NoticeBoard.called, hg, Nat.add_assoc]
      · simp [beginStep, beginAction, Circumstances.ask, settled, Meter.after, Action.cost, Action.plays, Action.asks,
          Equipment.grants, Devices.meter, NoticeBoard.called, hg, Instant.plusMillis_zero]
    | unknown =>
      refine ⟨?_, trivial, hch⟩
      simp [beginStep, beginAction, settled, Meter.after, Action.cost, Action.plays, Action.asks, Devices.meter,
        Instant.plusMillis_zero]
  | block id frame children =>
    cases frame with
    | notifyUntil alert => cases hs
    | loop count =>
      obtain ⟨-, -, hb | ⟨-, hb⟩⟩ := beginLoop_of_unrolls hs c d <;> rw [hb] <;> exact ⟨rfl, trivial, hch⟩

theorem keeps_counting {id : StepId} {t : Ticking} (ht : t.InOrder c.now) (hf : t.floor = 0) (hch : d.channel.InOrder)
    (ha : c.signals.aborted = false) (h : (counting id t).advance c d = some m) : Keeps c d (counting id t) m := by
  obtain ⟨tm, htm, rfl⟩ := Option.map_eq_some_iff.1 h
  obtain ⟨cd, rfl, hends⟩ | ⟨t', ht', hgoes⟩ := ht.advance htm
  · have hover : t.countdown.left c.now = 0 := by
      rcases hends.cause with hcause | hcause | hcause
      · rw [ha] at hcause; cases hcause
      · cases hcause
      · rw [← hends.left, hcause, hf]
    refine ⟨?_, trivial, hch⟩
    show d.meter c.now = { d.meter c.now with now := c.now.plusMillis (t.countdown.left c.now).toNat }
    rw [hover, Int.toNat_zero, Instant.plusMillis_zero]
    rfl
  · have hkeeps : ({ d.meter c.now with now := c.now.plusMillis (t'.countdown.left c.now).toNat } : Meter) =
        { d.meter c.now with now := c.now.plusMillis (t.countdown.left c.now).toNat } := by rw [hgoes.left]
    cases tm with
    | ended cd => cases ht'
    | goes t₁ => cases ht'; exact ⟨hkeeps, ⟨hgoes.inOrder, hgoes.floor.trans hf⟩, hch⟩
    | ticked t₁ => cases ht'; exact ⟨hkeeps, ⟨hgoes.inOrder, hgoes.floor.trans hf⟩, hch⟩

theorem keeps_beginSound {url : String} (hends : ∀ n, c.equipment.player n url ≠ .endless) (hch : d.channel.InOrder) :
    Keeps c d (sound url true .begin) (beginSound url true c d) := by
  have hcall : (Call.start c.equipment.player d.channel.nextCall url c.now).ends =
      some (c.now.plusMillis (c.equipment.soundMs d.channel.nextCall url)) := by
    unfold Call.start Equipment.soundMs
    cases hp : c.equipment.player d.channel.nextCall url with
    | lasts ms | fails ms => rfl
    | endless => exact absurd hp (hends _)
  refine ⟨?_, ⟨⟨_, hcall⟩, ?_⟩, hch.install c.owner url⟩
  · simp only [beginSound, settled, hcall, Option.getD_some]
    rfl
  · rw [number_start]
    exact hch.isCut_install c.owner url

theorem keeps_playing {url : String} {call : Call} {k : Nat} (hk : call.ends = some (c.now.plusMillis k))
    (hcut : d.channel.isCut call.number = false) (hch : d.channel.InOrder) (hp : c.signals.paused = false)
    (h : (sound url true (.playing call)).advance c d = some m) : Keeps c d (sound url true (.playing call)) m := by
  obtain ⟨how, hhow, rfl⟩ := Option.map_eq_some_iff.1 h
  have hover : k = 0 := by
    have hle : (c.now.plusMillis k).nanos ≤ (c.now.plusMillis 0).nanos := by
      rw [c.now.plusMillis_zero]
      cases ho : call.isOver c.now with
      | true => simpa [Call.isOver, hk] using ho
      | false => simp [Call.end?, ho, hcut] at hhow
    rw [c.now.plusMillis_le_iff] at hle
    omega
  rw [hover, c.now.plusMillis_zero] at hk
  simp only [hp, Bool.and_false, Bool.false_and, Bool.false_eq_true, if_false]
  refine ⟨?_, trivial, hch.release call.number⟩
  rw [settled_playing hk]
  simp only [settled, Devices.meter, d.channel.nextCall_release]

theorem keeps_notifying {n : Notification} {phase : NoticePhase} {grace : Instant}
    (hon : (notifying n phase grace).IsTimely c.now d.channel) (hch : d.channel.InOrder)
    (h : (notifying n phase grace).advance c d = some m) : Keeps c d (notifying n phase grace) m := by
  cases phase with
  | asking due permission =>
    obtain ⟨rfl, rfl⟩ := hon
    have hcome : c.hasCome (some c.now) = true := by simp [Circumstances.hasCome]
    simp only [advance, advanceNotice, NoticePhase.advance, hcome, if_true] at h
    by_cases hg : permission = .granted
    · simp only [hg, if_true] at h
      cases h
      refine ⟨?_, ⟨_, 2000, rfl, rfl⟩, hch⟩
      simp only [Circumstances.present, settled, hg, if_true, Instant.sooner_plusMillis]
      rfl
    · simp only [hg, if_false] at h
      cases h
      refine ⟨?_, trivial, hch⟩
      simp only [settled, hg, if_false]
  | presenting due fails =>
    obtain ⟨delay, j, rfl, rfl⟩ := hon
    -- the call has returned or is given up, and the sooner of the two is now
    have hover : min (delay.getD j) j = 0 := by
      obtain ⟨t, ht, hle⟩ := isOver_of_advance h rfl
      rw [← c.now.plusMillis_zero] at hle
      rcases ht with ht | ht
      · obtain ⟨k, rfl, rfl⟩ := Option.map_eq_some_iff.1 ht
        have hk := (c.now.plusMillis_le_iff k 0).1 hle
        simp only [Option.getD_some]
        omega
      · cases ht
        have hj := (c.now.plusMillis_le_iff j 0).1 hle
        omega
    have hend : (notifying n (.presenting (delay.map c.now.plusMillis) fails) (c.now.plusMillis j)).settled c.equipment
        (d.meter c.now) = d.meter c.now := by
      simp only [settled, Instant.sooner_plusMillis, hover, c.now.plusMillis_zero]
      rfl
    have hnext : m.next = done ∧ m.devices.meter c.now = d.meter c.now ∧ m.devices.channel = d.channel := by
      simp only [advance, advanceNotice, NoticePhase.advance] at h
      split at h <;> rename_i hp
      · split at hp <;> cases hp
      · split at hp <;> cases hp
        cases h
        exact ⟨rfl, rfl, rfl⟩
      · split at hp <;> cases hp
      · split at h <;> cases h
        exact ⟨rfl, rfl, rfl⟩
    obtain ⟨hdone, hmeter, hdev⟩ := hnext
    refine ⟨?_, by rw [hdone]; trivial, by rw [hdev]; exact hch⟩
    rw [hend, hdone, ← hmeter]
    rfl

/-- A move of an action leaves the meter at its end as it is. -/
theorem keeps_advance {a : Activity} (hacts : Acts c.equipment.defaultSound (Action.Ends c.equipment) a)
    (hon : a.IsTimely c.now d.channel) (hask : c.equipment.AsksAtOnce) (hch : d.channel.InOrder)
    (ha : c.signals.aborted = false) (hp : c.signals.paused = false) (h : a.advance c d = some m) : Keeps c d a m := by
  cases hacts with
  | entering hs => cases h; exact keeps_beginStep hs hask hch
  | counting id t => exact keeps_counting hon.1 hon.2 hch ha h
  | @sound spec hspec phase =>
    have hends : ∀ n, c.equipment.player n (spec.effectiveUrl c.equipment.defaultSound) ≠ .endless := by
      rcases hspec with hspec | hspec <;> exact hspec
    rcases advance_sound h with ⟨rfl, rfl⟩ | ⟨rfl, rfl⟩ | ⟨rfl, rfl⟩ | ⟨call, how, rfl, -, -⟩
    · rw [hp]
      exact ⟨rfl, trivial, hch⟩
    · exact ⟨rfl, trivial, hch⟩
    · rw [if_neg (by simp [ha])]
      exact keeps_beginSound hends hch
    · obtain ⟨⟨k, hk⟩, hcut⟩ := hon
      exact keeps_playing hk hcut hch hp h
  | notifying hn n phase grace => exact keeps_notifying hon hch h

/-! ## The passing of time -/

/-- An action that does not go on: a wait, a sound that is not over, or a notification that is neither
up nor given up. -/
inductive Rests (c : Circumstances) : Activity → Prop
  | counting (id : StepId) {t : Ticking} (ht : t.InOrder c.now) (hf : t.floor = 0)
      (hn : t.advance c.now c.signals false = none) : Rests c (counting id t)
  | playing (url : String) {call : Call} {k : Nat} (hk : call.ends = some (c.now.plusMillis k)) (hpos : 0 < k) :
      Rests c (sound url true (.playing call))
  | presenting (n : Notification) (fails : Bool) {delay : Option Nat} {j : Nat} (hdelay : ∀ k, delay = some k → 0 < k)
      (hj : 0 < j) : Rests c (notifying n (.presenting (delay.map c.now.plusMillis) fails) (c.now.plusMillis j))

theorem rests_of_advance_eq_none {a : Activity} (hacts : Acts c.equipment.defaultSound (Action.Ends c.equipment) a)
    (hon : a.IsTimely c.now d.channel) (hp : c.signals.paused = false) (h : a.advance c d = none) : Rests c a := by
  cases hacts with
  | entering hs => cases h
  | counting id t => exact .counting id hon.1 hon.2 (Option.map_eq_none_iff.1 h)
  | @sound spec hspec phase =>
    cases phase with
    | check => cases h
    | held => simp [advance, advanceSound, hp] at h
    | begin =>
      simp only [advance, advanceSound] at h
      split at h <;> cases h
    | playing call =>
      obtain ⟨⟨k, hk⟩, hcut⟩ := hon
      have hnot : ¬ (c.now.plusMillis k).nanos ≤ c.now.nanos := by
        intro hle
        have hover : call.isOver c.now = true := by simp [Call.isOver, hk, hle]
        simp [advance, advanceSound, Call.end?, hover, hcut] at h
      refine .playing _ hk (Nat.pos_of_ne_zero fun hzero => hnot ?_)
      exact Nat.le_of_eq (by rw [hzero, c.now.plusMillis_zero])
  | notifying hn n phase grace =>
    cases phase with
    | asking due permission =>
      obtain ⟨rfl, -⟩ := hon
      have hsome := isSome_advance_of_isOver (c := c) (d := d) (a := notifying n (.asking (some c.now) permission) grace) rfl
        ⟨c.now, Or.inl rfl, Nat.le_refl _⟩
      rw [h] at hsome
      cases hsome
    | presenting due fails =>
      obtain ⟨delay, j, rfl, rfl⟩ := hon
      have hwait {k : Nat} (hk : delay.map c.now.plusMillis = some (c.now.plusMillis k) ∨
          some (c.now.plusMillis j) = some (c.now.plusMillis k)) : 0 < k := by
        refine Nat.pos_of_ne_zero fun hzero => ?_
        subst hzero
        have hsome := isSome_advance_of_isOver (c := c) (d := d)
          (a := notifying n (.presenting (delay.map c.now.plusMillis) fails) (c.now.plusMillis j)) rfl
          ⟨c.now.plusMillis 0, hk, Nat.le_of_eq (by rw [c.now.plusMillis_zero])⟩
        rw [h] at hsome
        cases hsome
      exact .presenting n fails (fun k hk => hwait (Or.inl (by rw [hk]; rfl))) (hwait (Or.inr rfl))

/-- The alarms of an action that does not go on are at least a millisecond ahead. -/
theorem Rests.alarms {a : Activity} (h : Rests c a) (hp : c.signals.paused = false) :
    ∀ t ∈ a.alarms, (c.now.plusMillis 1).nanos ≤ t.nanos := by
  intro t ht
  cases h with
  | @counting id t' hin hf hn =>
    rcases Ticking.rests_cases hn with ⟨-, hpaused⟩ | ⟨alarm, hphase, hlt, -⟩
    · rw [hp] at hpaused; cases hpaused
    · have hplaced := hin.placed
      rw [Ticking.IsPlaced, hphase] at hplaced
      obtain ⟨start, j, k, -, hnow, rfl, -⟩ := hplaced
      have halarm : t = start.plusMillis k := by simpa [Activity.alarms, Ticking.alarms, hphase] using ht
      rw [halarm, hnow, start.plusMillis_plusMillis, start.plusMillis_le_iff]
      rw [hnow, ← Nat.not_le, start.plusMillis_le_iff] at hlt
      omega
  | @playing url call k hk hpos =>
    have halarm : t = c.now.plusMillis k := by simpa [Activity.alarms, hk] using ht
    rw [halarm, c.now.plusMillis_le_iff]
    exact hpos
  | @presenting n fails delay j hdelay hj =>
    rcases List.mem_append.1 ht with ht | ht
    · obtain ⟨k, hk, rfl⟩ := Option.map_eq_some_iff.1 (Option.mem_toList.1 ht)
      exact (c.now.plusMillis_le_iff 1 k).2 (hdelay k hk)
    · rw [List.mem_singleton.1 ht]
      exact (c.now.plusMillis_le_iff 1 j).2 hj

/-- Time that passes while an action does not go on leaves the meter at its end as it is. -/
theorem Rests.pass {a : Activity} (h : Rests c a) (hon : a.IsTimely c.now d.channel) (hp : c.signals.paused = false)
    {ms : Nat} (halarms : ∀ t ∈ a.alarms, (c.now.plusMillis ms).nanos ≤ t.nanos) :
    a.settled c.equipment (d.meter (c.now.plusMillis ms)) = a.settled c.equipment (d.meter c.now) ∧
      a.IsTimely (c.now.plusMillis ms) d.channel := by
  cases h with
  | @counting id t hin hf hn =>
    obtain ⟨hin', hleft⟩ := hin.pass hn halarms
    have hnonneg := hin'.floor_le_left
    simp only [hp, Bool.false_eq_true, if_false] at hleft
    rw [hf] at hnonneg
    refine ⟨?_, hin', hf⟩
    simp only [settled, Devices.meter, hleft, c.now.plusMillis_plusMillis, Meter.mk.injEq, and_true]
    congr 1
    omega
  | @playing url call k hk hpos =>
    have hle := halarms (c.now.plusMillis k) (by simp [Activity.alarms, hk])
    refine ⟨by rw [settled_playing hk, settled_playing hk], ⟨k - ms, ?_⟩, hon.2⟩
    rw [hk, Instant.plusMillis_sub hle]
  | @presenting n fails delay j hdelay hj =>
    have hle := halarms (c.now.plusMillis j) (by simp [Activity.alarms])
    refine ⟨by rw [settled_presenting, settled_presenting], delay.map (· - ms), j - ms, ?_, (Instant.plusMillis_sub hle).symm⟩
    cases delay with
    | none => simp only [Option.map_none]
    | some k =>
      have hdue := halarms (c.now.plusMillis k) (by simp [Activity.alarms])
      simp only [Option.map_some, Instant.plusMillis_sub hdue]

end Activity

end StepTimer
