/-
Writing values as text, on one line or indented. The indented form puts every item and member on a
line of its own, two blanks deeper than its list or record; an empty list or record stays on one
line.
-/
import StepTimer.Json.Basic
import StepTimer.Decimal.Notation

namespace StepTimer

def Number.render : Number → String
  | .int i => if i < 0 then "-" ++ i.natAbs.repr else i.natAbs.repr
  | .double d => d.render

namespace Json

/-- The two hexadecimal digits of a control character. -/
def hexPair (n : Nat) : List Char := [Nat.digitChar (n / 16), Nat.digitChar (n % 16)]

/-- A character inside a quoted text: quotes, backslashes and control characters are escaped. -/
def escape (c : Char) : List Char :=
  if c = '"' then ['\\', '"']
  else if c = '\\' then ['\\', '\\']
  else if c = '\x08' then ['\\', 'b']
  else if c = '\x0c' then ['\\', 'f']
  else if c = '\n' then ['\\', 'n']
  else if c = '\r' then ['\\', 'r']
  else if c = '\t' then ['\\', 't']
  else if c.toNat < 32 then ['\\', 'u', '0', '0'] ++ hexPair c.toNat
  else [c]

def quote (s : String) : List Char := '"' :: s.toList.flatMap escape ++ ['"']

/-- The start of a line at a depth of indentation. -/
def newline (depth : Nat) : List Char := '\n' :: List.replicate (2 * depth) ' '

/-! ## One line -/

mutual

def compact : Json → List Char
  | null => ['n', 'u', 'l', 'l']
  | bool true => ['t', 'r', 'u', 'e']
  | bool false => ['f', 'a', 'l', 's', 'e']
  | number n => n.render.toList
  | string s => quote s
  | array items => '[' :: compactItems items ++ [']']
  | object members => '\x7b' :: compactMembers members ++ ['\x7d']

/-- The items of a list with commas between them. -/
def compactItems : List Json → List Char
  | [] => []
  | [j] => compact j
  | j :: js => compact j ++ ',' :: compactItems js

/-- The members of a record with commas between them. -/
def compactMembers : List (String × Json) → List Char
  | [] => []
  | [(name, j)] => quote name ++ ':' :: compact j
  | (name, j) :: rest => quote name ++ ':' :: compact j ++ ',' :: compactMembers rest

end

def render (j : Json) : String := String.ofList j.compact

/-! ## Indented -/

mutual

/-- The characters of a value whose first line starts at a depth of indentation. -/
def indented (depth : Nat) : Json → List Char
  | array items =>
    if items.isEmpty then ['[', ']']
    else '[' :: indentedItems (depth + 1) items ++ newline depth ++ [']']
  | object members =>
    if members.isEmpty then ['\x7b', '\x7d']
    else '\x7b' :: indentedMembers (depth + 1) members ++ newline depth ++ ['\x7d']
  | j => compact j

/-- The items of a list, each on a new line. -/
def indentedItems (depth : Nat) : List Json → List Char
  | [] => []
  | j :: js =>
    newline depth ++ indented depth j ++ (if js.isEmpty then [] else [','])
      ++ indentedItems depth js

/-- The members of a record, each on a new line. -/
def indentedMembers (depth : Nat) : List (String × Json) → List Char
  | [] => []
  | (name, j) :: rest =>
    newline depth ++ quote name ++ ':' :: ' ' :: indented depth j
      ++ (if rest.isEmpty then [] else [',']) ++ indentedMembers depth rest

end

def renderIndented (j : Json) : String := String.ofList (j.indented 0)

end Json

end StepTimer
