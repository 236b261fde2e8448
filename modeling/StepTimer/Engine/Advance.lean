/-
How a run goes on. `advance` makes the next move of an activity, or none while it waits; a move takes
no time, reads the signals at that moment, and reports at most once. In a round of an alert the
round and the countdown go on beside each other, and a coin says which of the two is looked at
first; the one that ends first ends the round.
-/
import StepTimer.Engine.Activity

namespace StepTimer

/-- A move of an activity: what comes next, the shared devices after it, and what is seen of it. -/
structure Move where
  next : Activity
  devices : Devices
  events : List Event := []

/-- What a move depends on. -/
structure Circumstances where
  equipment : Equipment
  owner : RunId
  now : Instant
  signals : Signals
  /-- Which of two sides is looked at first. -/
  coin : Bool := true

namespace Circumstances

def ask (c : Circumstances) (d : Devices) : NoticePhase × Devices :=
  let reply := c.equipment.notifier.ask d.board.calls
  (.asking (reply.delayMs.map c.now.plusMillis) reply.permission,
    { d with board := d.board.called })

def present (c : Circumstances) (d : Devices) : NoticePhase × Devices :=
  let showing := c.equipment.notifier.present d.board.calls
  (.presenting (showing.delayMs.map c.now.plusMillis) showing.fails,
    { d with board := d.board.called })

/-- Whether an instant has come; one that never comes has not. -/
def hasCome (c : Circumstances) : Option Instant → Bool
  | some t => t.nanos ≤ c.now.nanos
  | none => false

def silence (c : Circumstances) (d : Devices) : Devices :=
  { d with channel := d.channel.stopOwnedBy c.owner }

end Circumstances

/-- The next move on the way of a notification to the screen. -/
inductive NoticeMove where
  | goes (phase : NoticePhase) (devices : Devices)
  /-- The notification is up; its number is none when that failed. -/
  | shown (notice : Option Nat) (devices : Devices)
  /-- There is no permission to show it. -/
  | refused (devices : Devices)

/-- The next move on the way of a notification to the screen; none while the notifier takes its
time. -/
def NoticePhase.advance (c : Circumstances) (d : Devices) : NoticePhase → Option NoticeMove
  | asking due permission =>
    if c.hasCome due then
      if permission = .granted then
        let (phase, d) := c.present d
        some (.goes phase d)
      else some (.refused d)
    else none
  | presenting due fails =>
    if c.hasCome due then
      some (.shown (if fails then none else some d.board.shown) { d with board := d.board.put })
    else none

namespace Raised

def isDismissed (r : Raised) (d : Devices) : Bool := d.board.isDismissed r.notice

/-- The end of an alert: its sound is silenced and its countdown cleared. -/
def finish (r : Raised) (c : Circumstances) (d : Devices) : Move :=
  ⟨.done, c.silence d, [.progress r.id none]⟩

/-- The round of an alert: its steps, or its sound if it has none. -/
def round (r : Raised) (c : Circumstances) : Activity :=
  if r.children.isEmpty then
    .sound (r.alert.sound.effectiveUrl c.equipment.defaultSound) false .begin
  else .ready r.children

/-- The step for which the countdown beside a round reports; steps in a round report themselves. -/
def reportAs (r : Raised) : Option StepId := if r.children.isEmpty then some r.id else none

/-- What follows a round that has ended: the time passed is taken off, and while there is time the
alert waits for its interval. -/
def afterRound (r : Raised) (countdown : Countdown) (c : Circumstances) (d : Devices)
    (events : List Event) : Move :=
  let countdown := countdown.settle c.now
  let report : List Event :=
    if r.children.isEmpty then [] else [.progress r.id (some countdown.remainingMs)]
  let interval := r.alert.intervalMs
  if 0 < interval.toNat ∧ !countdown.expired then
    let floor := countdown.remaining - min (interval.toNat : Int) countMax
    ⟨.alertGap r (.start countdown floor (some r.id)), d, events ++ report⟩
  else ⟨.alertTop r countdown, d, events ++ report⟩

end Raised

def Ticking.report (t : Ticking) : List Event :=
  match t.reportAs with
  | some id => [.progress id (some t.countdown.remainingMs)]
  | none => []

namespace Activity

/-- What is seen when an activity is given up: a sound under way is cut. -/
def dropEvents (a : Activity) : List Event :=
  match a.call? with
  | some call => [.cut call.url]
  | none => []

/-- The beginning of a wait: its full time is reported. -/
def beginWait (id : StepId) (total : UInt64) (c : Circumstances) (d : Devices) : Move :=
  let countdown := Countdown.start total c.now
  ⟨.counting id (.start countdown 0 (some id)), d, [.progress id (some countdown.remainingMs)]⟩

def beginAction (id : StepId) (c : Circumstances) (d : Devices) : Action → Move
  | .wait amount unit => beginWait id (unit.durationMillis amount) c d
  | .waitUntil time half =>
    let time := sanitizeTime time "12:00"
    beginWait id (UInt64.ofNat (millisUntilClock time half (c.equipment.wall c.now))) c d
  | .playSound spec => ⟨.sound (spec.effectiveUrl c.equipment.defaultSound) true .check, d, []⟩
  | .playSoundUntil spec =>
    ⟨.sound (spec.effectiveUrl c.equipment.defaultSound) true .check, d, []⟩
  | .notify title body =>
    let (phase, d) := c.ask d
    ⟨.notifying (.make title body) phase (c.now.plusMillis 2000), d, []⟩
  | .unknown => ⟨.done, d, []⟩

def beginBlock (id : StepId) (children : List Step) (c : Circumstances) (d : Devices) :
    Frame → Move
  | .notifyUntil alert =>
    let (phase, d) := c.ask d
    ⟨.announcing id alert children (.start alert.timeout c.now) phase, d,
      [.progress id (some alert.timeout)]⟩
  | .loop count =>
    if !children.isEmpty then ⟨.loopTop count children 0, d, []⟩
    else if count = .infinite then ⟨.parked, d, []⟩
    else ⟨.done, d, []⟩

def beginStep (c : Circumstances) (d : Devices) : Step → Move
  | .leaf id action => beginAction id c d action
  | .block id frame children => beginBlock id children c d frame

def activate (d : Devices) (s : Step) (rest : List Step) : Move :=
  ⟨.within (.entering s) rest, d, [.progress s.id none]⟩

def beginSound (url : String) (replays : Bool) (c : Circumstances) (d : Devices) : Move :=
  let call := Call.start c.equipment.player d.channel.nextCall url c.now
  ⟨.sound url replays (.playing call), { d with channel := d.channel.install c.owner url },
    [.play url]⟩

/-- What is seen of the end of a call. -/
def endEvent (url : String) : PlaybackEnd → Event
  | .finished => .finish url
  | .failed => .fail url
  | .interrupted => .cut url

/-- The next move of a sound. It is started again when it was cut while the run is paused. -/
def advanceSound (url : String) (replays : Bool) (c : Circumstances) (d : Devices) :
    SoundPhase → Option Move
  | .check => some ⟨.sound url replays (if c.signals.paused then .held else .begin), d, []⟩
  | .held =>
    if !c.signals.paused || c.signals.aborted then some ⟨.sound url replays .begin, d, []⟩ else none
  | .begin =>
    if replays && c.signals.aborted then some ⟨.done, d, []⟩ else some (beginSound url replays c d)
  | .playing call =>
    (call.end? c.coin d.channel c.now).map fun how =>
      let again := replays && how = .interrupted && c.signals.paused && !c.signals.aborted
      ⟨if again then .sound url replays .check else .done,
        { d with channel := d.channel.release call.number }, [endEvent call.url how]⟩

def advanceNotice (n : Notification) (phase : NoticePhase) (grace : Instant) (c : Circumstances)
    (d : Devices) : Option Move :=
  match phase.advance c d with
  | some (.goes phase d) => some ⟨.notifying n phase grace, d, []⟩
  | some (.shown _ d) => some ⟨.done, d, [.show n false]⟩
  | some (.refused d) => some ⟨.done, d, []⟩
  | none => if grace.nanos ≤ c.now.nanos then some ⟨.done, d, []⟩ else none

/-- The next move of an alert whose notification is on its way. -/
def advanceAnnouncement (id : StepId) (alert : Alert) (children : List Step)
    (countdown : Countdown) (phase : NoticePhase) (c : Circumstances) (d : Devices) :
    Option Move :=
  (phase.advance c d).map fun
    | .goes phase d => ⟨.announcing id alert children countdown phase, d, []⟩
    | .shown notice d =>
      ⟨.alertTop ⟨id, alert, children, notice⟩ countdown, d,
        [.show (.make alert.title alert.body) true]⟩
    | .refused d => ⟨.alertTop ⟨id, alert, children, none⟩ countdown, d, []⟩

/-- The decision on the next round of an alert. -/
def advanceAlertTop (r : Raised) (countdown : Countdown) (c : Circumstances) (d : Devices) : Move :=
  if c.signals.aborted || r.isDismissed d || countdown.expired then r.finish c d
  else if c.signals.paused then ⟨.alertHeld r (countdown.suspend c.now), d, []⟩
  else ⟨.alertRound r (.start countdown 0 r.reportAs) (r.round c), d, []⟩

/-- The next move of the countdown beside a round. When it ends, the round is given up and its sound
is silenced. -/
def advanceBeside (r : Raised) (ticking : Ticking) (current : Activity) (c : Circumstances)
    (d : Devices) : Option Move :=
  (ticking.advance c.now c.signals (r.isDismissed d)).map fun
    | .ended countdown => r.afterRound countdown c (c.silence d) current.dropEvents
    | .goes ticking => ⟨.alertRound r ticking current, d, []⟩
    | .ticked ticking => ⟨.alertRound r ticking current, d, ticking.report⟩

/-- The next move of a countdown between two rounds. -/
def advanceGap (r : Raised) (ticking : Ticking) (c : Circumstances) (d : Devices) : Option Move :=
  (ticking.advance c.now c.signals (r.isDismissed d)).map fun
    | .ended countdown => ⟨.alertTop r countdown, d, []⟩
    | .goes ticking => ⟨.alertGap r ticking, d, []⟩
    | .ticked ticking => ⟨.alertGap r ticking, d, ticking.report⟩

def advanceCounting (id : StepId) (ticking : Ticking) (c : Circumstances) (d : Devices) :
    Option Move :=
  (ticking.advance c.now c.signals false).map fun
    | .ended _ => ⟨.done, d, [.progress id none]⟩
    | .goes ticking => ⟨.counting id ticking, d, []⟩
    | .ticked ticking => ⟨.counting id ticking, d, ticking.report⟩

/-- The decision on the next pass of a loop. -/
def advanceLoopTop (count : RepeatCount) (children : List Step) (passes : Nat) (c : Circumstances)
    (d : Devices) : Move :=
  let isOver := match count with
    | .infinite => false
    | .times n => n.toNat ≤ passes
  if c.signals.aborted || isOver then ⟨.done, d, []⟩
  else ⟨.loopPass count children passes (.ready children), d, []⟩

/-- The next move of an activity; none while it waits, and when it is done. -/
def advance (c : Circumstances) (d : Devices) : Activity → Option Move
  | done => none
  | ready [] => some ⟨done, d, []⟩
  | ready (s :: rest) =>
    if c.signals.aborted then some ⟨done, d, []⟩
    else if c.signals.paused then some ⟨held (s :: rest), d, []⟩
    else some (activate d s rest)
  | held [] => some ⟨done, d, []⟩
  | held (s :: rest) =>
    if c.signals.aborted then some ⟨done, d, []⟩
    else if c.signals.paused then none
    else some (activate d s rest)
  | within current rest =>
    if current.isDone then some ⟨ready rest, d, []⟩
    else (current.advance c d).map fun m => { m with next := within m.next rest }
  | entering s => some (beginStep c d s)
  | counting id ticking => advanceCounting id ticking c d
  | sound url replays phase => advanceSound url replays c d phase
  | notifying n phase grace => advanceNotice n phase grace c d
  | announcing id alert children countdown phase =>
    advanceAnnouncement id alert children countdown phase c d
  | alertTop r countdown => some (advanceAlertTop r countdown c d)
  | alertHeld r countdown =>
    if !c.signals.paused || c.signals.aborted || r.isDismissed d then
      some ⟨alertTop r countdown, d, []⟩
    else none
  | alertRound r ticking current =>
    if current.isDone then some (r.afterRound ticking.countdown c d [])
    else
      let round := (current.advance c d).map fun m =>
        { m with next := alertRound r ticking m.next }
      let beside := advanceBeside r ticking current c d
      if c.coin then round.or beside else beside.or round
  | alertGap r ticking => advanceGap r ticking c d
  | loopTop count children passes => some (advanceLoopTop count children passes c d)
  | loopPass count children passes current =>
    if current.isDone then some ⟨loopYield count children (passes + 1), d, []⟩
    else (current.advance c d).map fun m => { m with next := loopPass count children passes m.next }
  | loopYield _ _ _ => none
  | parked => if c.signals.aborted then some ⟨done, d, []⟩ else none

end Activity

end StepTimer
