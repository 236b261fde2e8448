/-
Notifications. What is shown is cut to the space there is for it; a notifier is asked for its
permission and then shows the notification, and each takes its time. Notifications that were shown
are numbered, and one that is dismissed stays so.
-/
import StepTimer.Time.Instant

namespace StepTimer

/-- A notification as it is shown. -/
structure Notification where
  title : String
  body : Option String
deriving DecidableEq, Repr

namespace Notification

def titleLimit : Nat := 100

def bodyLimit : Nat := 200

def clip (limit : Nat) (text : String) : String := String.ofList (text.toList.take limit)

/-- The notification of a title and a body: both are cut to their limits, an empty body is none. -/
def make (title : String) (body : Option String) : Notification :=
  ⟨clip titleLimit title, (body.filter fun b => b ≠ "").map (clip bodyLimit)⟩

end Notification

/-- What a notifier answers when it is asked for permission. -/
inductive Permission where
  | granted | denied | unsupported
deriving DecidableEq, Repr

/-- The answer to a question for permission, and the milliseconds until it comes; without end when
it never comes. -/
structure PermissionReply where
  permission : Permission
  delayMs : Option Nat := some 0
deriving DecidableEq, Repr

/-- How a notification is shown: the milliseconds until it is up, and whether that fails. -/
structure Showing where
  delayMs : Option Nat := some 0
  fails : Bool := false
deriving DecidableEq, Repr

/-- What shows the notifications; its calls are numbered. -/
structure Notifier where
  ask : Nat → PermissionReply
  present : Nat → Showing

/-- The notifier that shows nothing. -/
def Notifier.off : Notifier := ⟨fun _ => ⟨.unsupported, some 0⟩, fun _ => {}⟩

/-- The notifications of the past: the number of calls to the notifier, how many notifications were
shown, and which of them were dismissed. -/
structure NoticeBoard where
  calls : Nat := 0
  shown : Nat := 0
  dismissed : List Nat := []
deriving Repr

namespace NoticeBoard

def called (b : NoticeBoard) : NoticeBoard := { b with calls := b.calls + 1 }

/-- Puts a notification up, under the next number. -/
def put (b : NoticeBoard) : NoticeBoard := { b with shown := b.shown + 1 }

def dismissAll (b : NoticeBoard) : NoticeBoard := { b with dismissed := List.range b.shown }

def dismiss (b : NoticeBoard) (n : Nat) : NoticeBoard := { b with dismissed := n :: b.dismissed }

/-- Whether a notification was dismissed; what was not shown never is. -/
def isDismissed (b : NoticeBoard) : Option Nat → Bool
  | none => false
  | some n => n ∈ b.dismissed

end NoticeBoard

end StepTimer
