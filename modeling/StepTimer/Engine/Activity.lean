/-
What a run is doing: the steps still to come and, nested in each other, the steps that are under
way. An activity waits on the clock, on the signals of its run, on the audio channel or on a
dismissal; `Engine.Advance` says how it goes on.
-/
import StepTimer.Engine.Countdown
import StepTimer.Audio.Channel
import StepTimer.Notice

namespace StepTimer

/-- What a run uses besides itself: the player, the notifier, the address of the built-in sound, and
the wall clock beside the monotonic one. -/
structure Equipment where
  player : Player
  notifier : Notifier
  defaultSound : String
  wall : Instant → WallTime

/-- What all runs share: the audio channel and the notifications. -/
structure Devices where
  channel : Channel := {}
  board : NoticeBoard := {}
deriving Repr

/-- What the outside gets to see of a run. -/
inductive Event where
  /-- A sound starts, comes to its end, fails, or is given up. -/
  | play (url : String)
  | finish (url : String)
  | fail (url : String)
  | cut (url : String)
  | show (notification : Notification) (dismissable : Bool)
  /-- A step is active, with the milliseconds it has left if it counts down. -/
  | progress (step : StepId) (remainingMs : Option UInt64)
deriving DecidableEq, Repr

/-- Where a sound is. -/
inductive SoundPhase where
  /-- About to wait for a pause to end. -/
  | check
  | held
  /-- About to take the channel. -/
  | begin
  | playing (call : Call)
deriving DecidableEq, Repr

/-- Where a notification is on its way to the screen. -/
inductive NoticePhase where
  /-- Waiting for permission. -/
  | asking (due : Option Instant) (permission : Permission)
  /-- Waiting for the notification to be up. -/
  | presenting (due : Option Instant) (fails : Bool)
deriving DecidableEq, Repr

/-- An alert that is up. -/
structure Raised where
  id : StepId
  alert : Alert
  children : List Step
  /-- The number of its notification; none when it could not be shown. -/
  notice : Option Nat

/-- What a run is doing. -/
inductive Activity where
  /-- Nothing any more. -/
  | done
  /-- About to go on with a list of steps. -/
  | ready (steps : List Step)
  /-- Waiting for a pause to end before a list of steps. -/
  | held (steps : List Step)
  /-- In a step, with the steps after it. -/
  | within (current : Activity) (rest : List Step)
  /-- About to begin a step that has just become active. -/
  | entering (step : Step)
  /-- Waiting for a time. -/
  | counting (id : StepId) (ticking : Ticking)
  /-- Playing a sound; one that replays is started again when a pause has cut it. -/
  | sound (url : String) (replays : Bool) (phase : SoundPhase)
  /-- Showing a notification; it is given up when the grace is over. -/
  | notifying (notification : Notification) (phase : NoticePhase) (grace : Instant)
  /-- Showing the notification of an alert, whose time is already running. -/
  | announcing (id : StepId) (alert : Alert) (children : List Step) (countdown : Countdown)
      (phase : NoticePhase)
  /-- About to decide on the next round of an alert. -/
  | alertTop (raised : Raised) (countdown : Countdown)
  /-- Waiting for a pause to end before the next round of an alert. -/
  | alertHeld (raised : Raised) (countdown : Countdown)
  /-- In a round of an alert, beside the running countdown. -/
  | alertRound (raised : Raised) (ticking : Ticking) (current : Activity)
  /-- Between two rounds of an alert. -/
  | alertGap (raised : Raised) (ticking : Ticking)
  /-- About to decide on the next pass of a loop. -/
  | loopTop (count : RepeatCount) (children : List Step) (passes : Nat)
  /-- In a pass of a loop. -/
  | loopPass (count : RepeatCount) (children : List Step) (passes : Nat) (current : Activity)
  /-- After a pass of a loop, letting others go first. -/
  | loopYield (count : RepeatCount) (children : List Step) (passes : Nat)
  /-- In a loop without end and without steps: waiting for the abort. -/
  | parked

namespace Activity

def isDone : Activity → Bool
  | done => true
  | _ => false

/-- The call to the player that is under way. -/
def call? : Activity → Option Call
  | within current _ => current.call?
  | alertRound _ _ current => current.call?
  | loopPass _ _ _ current => current.call?
  | sound _ _ (.playing call) => some call
  | _ => none

/-- Whether a loop lets others go first. -/
def hasYielded : Activity → Bool
  | within current _ => current.hasYielded
  | alertRound _ _ current => current.hasYielded
  | loopPass _ _ _ current => current.hasYielded
  | loopYield _ _ _ => true
  | _ => false

/-- The notification whose dismissal lets the activity go on: of alerts within each other, that of
the outermost one that could be shown. -/
def notice? : Activity → Option Nat
  | within current _ => current.notice?
  | alertHeld raised _ => raised.notice
  | alertRound raised _ current => raised.notice.or current.notice?
  | alertGap raised _ => raised.notice
  | loopPass _ _ _ current => current.notice?
  | _ => none

/-- The activity when its turn comes again: a loop that let others go first is about to decide on
its next pass. -/
def wake : Activity → Activity
  | within current rest => within current.wake rest
  | alertRound raised ticking current => alertRound raised ticking current.wake
  | loopPass count children passes current => loopPass count children passes current.wake
  | loopYield count children passes => loopTop count children passes
  | a => a

/-- The instants at which time lets the activity go on. -/
def alarms : Activity → List Instant
  | within current _ => current.alarms
  | counting _ ticking => ticking.alarms
  | sound _ _ (.playing call) => call.ends.toList
  | notifying _ (.asking due _) grace => due.toList ++ [grace]
  | notifying _ (.presenting due _) grace => due.toList ++ [grace]
  | announcing _ _ _ _ (.asking due _) => due.toList
  | announcing _ _ _ _ (.presenting due _) => due.toList
  | alertRound _ ticking current => ticking.alarms ++ current.alarms
  | alertGap _ ticking => ticking.alarms
  | loopPass _ _ _ current => current.alarms
  | _ => []

end Activity

end StepTimer
