/-
A player that runs a command for every sound, with the address of the sound as its last argument.
-/
import StepTimer.Device.Program
import StepTimer.Text.Blank

namespace StepTimer

/-- The command that plays a sound. -/
structure CommandPlayer where
  program : String
  args : List String
deriving DecidableEq, Repr

namespace CommandPlayer

/-- The player of a command line, whose words are separated by blanks; none when it is blank. -/
def ofCommandLine? (command : String) : Option CommandPlayer :=
  match Text.words command with
  | [] => none
  | program :: args => some ⟨program, args⟩

/-- The invocation that tells whether the player is there. It only has to be launched. -/
def check (p : CommandPlayer) : Invocation := ⟨p.program, ["-version"]⟩

/-- The invocation that plays the sound of an address. -/
def play (p : CommandPlayer) (url : String) : Invocation := ⟨p.program, p.args ++ [url]⟩

def exitMessage (code : Nat) : String := "player exited with " ++ exitText code

end CommandPlayer

end StepTimer
