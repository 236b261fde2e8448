/-
The one audio channel. A call that starts a sound takes the slot and cuts the call that had it; a
call that has been cut or has ended gives the slot back only if no newer call has taken it.
-/
import StepTimer.Time.Instant

namespace StepTimer

/-- The name of a run; a sound belongs to the run that started it. -/
abbrev RunId := Nat

/-- How a sound goes when it is played: it comes to its end after some milliseconds, or goes on without
one, or fails after some milliseconds. -/
inductive Performance where
  | lasts (ms : Nat)
  | endless
  | fails (ms : Nat)
deriving DecidableEq, Repr

/-- What plays the sounds: how the sound of an address goes in the call of a number. -/
abbrev Player := Nat → String → Performance

/-- How a call ended. -/
inductive PlaybackEnd where
  | finished | failed | interrupted
deriving DecidableEq, Repr

/-- A sound in the slot of the channel. -/
structure Playback where
  call : Nat
  owner : RunId
  url : String
deriving DecidableEq, Repr

/-- The channel: the sound in its slot, the number of the next call, and the calls that were cut. -/
structure Channel where
  current : Option Playback := none
  nextCall : Nat := 1
  cutCalls : List Nat := []
deriving Repr

namespace Channel

/-- Whether a sound is in the slot. -/
def isPlaying (c : Channel) : Bool := c.current.isSome

def isCut (c : Channel) (call : Nat) : Bool := call ∈ c.cutCalls

/-- Cuts the call in the slot and empties it. -/
def stop (c : Channel) : Channel :=
  match c.current with
  | none => c
  | some p => { c with current := none, cutCalls := p.call :: c.cutCalls }

/-- Cuts the call in the slot if it belongs to a run. -/
def stopOwnedBy (c : Channel) (owner : RunId) : Channel :=
  match c.current with
  | none => c
  | some p => if p.owner = owner then c.stop else c

/-- Starts a call: it takes the slot, and the call that had it is cut. -/
def install (c : Channel) (owner : RunId) (url : String) : Channel :=
  { c.stop with current := some ⟨c.nextCall, owner, url⟩, nextCall := c.nextCall + 1 }

/-- Empties the slot if a call still has it. -/
def release (c : Channel) (call : Nat) : Channel :=
  match c.current with
  | none => c
  | some p => if p.call = call then { c with current := none } else c

end Channel

/-- A call that is under way. -/
structure Call where
  number : Nat
  url : String
  /-- When the player comes to its end, unless the sound is endless. -/
  ends : Option Instant
  fails : Bool
deriving DecidableEq, Repr

namespace Call

/-- The call of a number that starts at an instant. -/
def start (player : Player) (number : Nat) (url : String) (now : Instant) : Call :=
  match player number url with
  | .lasts ms => ⟨number, url, some (now.plusMillis ms), false⟩
  | .endless => ⟨number, url, none, false⟩
  | .fails ms => ⟨number, url, some (now.plusMillis ms), true⟩

def isOver (c : Call) (now : Instant) : Bool :=
  match c.ends with
  | some t => t.nanos ≤ now.nanos
  | none => false

/-- How a call has ended, if it has. When the player is through and the call was also cut, the coin
says which of the two was seen first. -/
def end? (c : Call) (coin : Bool) (channel : Channel) (now : Instant) : Option PlaybackEnd :=
  let through : PlaybackEnd := if c.fails then .failed else .finished
  match c.isOver now, channel.isCut c.number with
  | true, true => some (if coin then through else .interrupted)
  | true, false => some through
  | false, true => some .interrupted
  | false, false => none

end Call

end StepTimer
