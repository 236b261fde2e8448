/-
Calls on the audio channel under a virtual clock: sounds are started and stopped, and each call ends
when its player is through or when it is cut.
-/
import StepTimer.Audio.Channel

namespace StepTimer

/-- The end of a call: when, the label it was started under, and how. -/
structure Ending where
  time : Nat
  label : Nat
  how : PlaybackEnd
deriving DecidableEq, Repr

/-- The calls under way on a channel. -/
structure AudioSession where
  player : Player
  channel : Channel := {}
  now : Instant := ⟨0⟩
  /-- The calls under way with their labels. -/
  active : List (Nat × Call) := []
  /-- The calls that have ended. -/
  endings : List Ending := []

namespace AudioSession

/-- Ends a call if it is through or was cut. -/
def collectOne (s : AudioSession) (entry : Nat × Call) : AudioSession :=
  match entry.2.end? true s.channel s.now with
  | none => { s with active := s.active ++ [entry] }
  | some how =>
    { s with
      channel := s.channel.release entry.2.number
      endings := s.endings ++ [⟨s.now.millis, entry.1, how⟩] }

/-- Ends the calls that are through or were cut. -/
def collect (s : AudioSession) : AudioSession :=
  s.active.foldl collectOne { s with active := [] }

/-- Starts the sound of an address for an owner, under a label. -/
def play (s : AudioSession) (label : Nat) (url : String) (owner : RunId) : AudioSession :=
  let call := Call.start s.player s.channel.nextCall url s.now
  collect { s with
    channel := s.channel.install owner url
    active := s.active ++ [(label, call)] }

def stop (s : AudioSession) : AudioSession := collect { s with channel := s.channel.stop }

/-- Stops the sound if it belongs to an owner. -/
def stopOwnedBy (s : AudioSession) (owner : RunId) : AudioSession :=
  collect { s with channel := s.channel.stopOwnedBy owner }

/-- The first end of a call that comes after now. -/
def nextEnd (s : AudioSession) : Option Instant :=
  s.active.foldl (fun best entry =>
    match entry.2.ends, best with
    | none, best => best
    | some t, none => some t
    | some t, some u => if t.nanos < u.nanos then some t else some u) none

/-- Lets time pass up to an instant, for at most so many ends of calls. -/
def passTime : Nat → Instant → AudioSession → AudioSession
  | 0, target, s => { s with now := target }
  | fuel + 1, target, s =>
    match s.nextEnd with
    | none => { s with now := target }
    | some t =>
      if t.nanos ≤ target.nanos then passTime fuel target (collect { s with now := t })
      else { s with now := target }

/-- Lets a number of milliseconds pass. Every step on the way ends a call. -/
def elapse (s : AudioSession) (ms : Nat) : AudioSession :=
  passTime s.active.length (s.now.plusMillis ms) s

end AudioSession

end StepTimer
