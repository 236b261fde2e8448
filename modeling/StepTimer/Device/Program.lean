/-
Programs of the system that play sounds and show notifications: what they are called with, and what
their exit means.
-/
namespace StepTimer

/-- A program with its arguments. -/
structure Invocation where
  program : String
  args : List String
deriving DecidableEq, Repr

/-- What became of an invocation. -/
inductive Exit where
  /-- The program could not be launched. -/
  | notLaunched
  | status (code : Nat)
deriving DecidableEq, Repr

/-- Why a program did not do its work. -/
inductive ProgramError where
  | launch (program : String)
  | exit (code : Nat)
deriving DecidableEq, Repr

def exitText (code : Nat) : String := "exit status: " ++ code.repr

/-- The result of a program that has to exit with zero. -/
def Invocation.succeeded (i : Invocation) : Exit → Except ProgramError Unit
  | .notLaunched => .error (.launch i.program)
  | .status 0 => .ok ()
  | .status code => .error (.exit code)

/-- The result of a program that only has to be launched. -/
def Invocation.launched (i : Invocation) : Exit → Except ProgramError Unit
  | .notLaunched => .error (.launch i.program)
  | .status _ => .ok ()

end StepTimer
