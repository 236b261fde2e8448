/-
A notifier that runs a program of the desktop. Whether notifications are allowed is found out once,
by a trial run of the program, and kept.
-/
import StepTimer.Device.Program
import StepTimer.Notice

namespace StepTimer

/-- The program that shows notifications, and the permission once it is known. -/
structure DesktopNotifier where
  appName : String
  program : String
  permission : Option Permission := none
deriving DecidableEq, Repr

namespace DesktopNotifier

/-- The invocation that tries the program. -/
def probe (n : DesktopNotifier) : Invocation := ⟨n.program, ["--version"]⟩

/-- What a trial run says about the permission. -/
def permissionOf : Exit → Permission
  | .notLaunched => .unsupported
  | .status 0 => .granted
  | .status _ => .denied

/-- Asks for permission: the answer, whether a trial was made, and the notifier that knows it. -/
def requestPermission (n : DesktopNotifier) (trial : Exit) : Permission × Bool × DesktopNotifier :=
  match n.permission with
  | some p => (p, false, n)
  | none => (permissionOf trial, true, { n with permission := some (permissionOf trial) })

/-- The invocation that shows a notification. One that can be dismissed stays up until then. -/
def present (n : DesktopNotifier) (notification : Notification) (dismissable : Bool) : Invocation :=
  ⟨n.program,
    ["--app-name=" ++ n.appName]
      ++ (if dismissable then ["--wait", "--urgency=critical", "--action=default=Dismiss"] else [])
      ++ notification.title :: notification.body.toList⟩

/-- The result of showing a notification. For one that can be dismissed it is known as soon as the
program is launched. -/
def shown (i : Invocation) (dismissable : Bool) (exit : Exit) : Except ProgramError Unit :=
  if dismissable then i.launched exit else i.succeeded exit

/-- Whether the exit of the program means that the notification was dismissed. -/
def dismissedBy (dismissable : Bool) (exit : Exit) : Bool := dismissable && exit = .status 0

def exitMessage (code : Nat) : String := "the notifier exited with " ++ exitText code

end DesktopNotifier

end StepTimer
