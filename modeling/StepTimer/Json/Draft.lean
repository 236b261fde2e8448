/-
Reading the text of a value. A text is first read into a draft, which keeps what a broken text says
before the place where it breaks: a list or record that does not end knows the parts it got, and a
value that is well formed but has no meaning (a number too large, half of a surrogate pair, a
nesting deeper than the limit) is marked as such. Errors are thus found in the order of the text,
also when a part that nobody asks for is the faulty one.
-/
import StepTimer.Json.Numeral

namespace StepTimer.Json

/-- What the text of a value says. -/
inductive Draft where
  | null
  | bool (value : Bool)
  | number (value : Number)
  | string (value : String)
  /-- A list; `closed` when the text has its end. -/
  | array (items : List Draft) (closed : Bool)
  /-- A record; a name that stands for no text is none. -/
  | object (members : List (Option String × Draft)) (closed : Bool)
  /-- Well-formed text of no value. -/
  | unreadable
  /-- Text that is not well formed. -/
  | broken
deriving Repr, Inhabited

/-- The deepest nesting of lists and records that is read. -/
def depthMax : Nat := 127

namespace Draft

/-! ## Scanning -/

def isSpace (c : Char) : Bool := c = ' ' || c = '\n' || c = '\t' || c = '\r'

def skipSpace (cs : List Char) : List Char := cs.dropWhile isSpace

def hexDigit? (c : Char) : Option Nat :=
  if c.isDigit then some (c.toNat - 48)
  else if 'a' ≤ c ∧ c ≤ 'f' then some (c.toNat - 87)
  else if 'A' ≤ c ∧ c ≤ 'F' then some (c.toNat - 55)
  else none

def hexCode? (a b c d : Char) : Option Nat := do
  return (((← hexDigit? a) * 16 + (← hexDigit? b)) * 16 + (← hexDigit? c)) * 16 + (← hexDigit? d)

/-- A piece of a quoted text: a character, or a 16-bit code written in hexadecimal. -/
inductive Piece where
  | char (c : Char)
  | code (n : Nat)
deriving DecidableEq, Repr

def escaped? : Char → Option Char
  | '"' => some '"'
  | '\\' => some '\\'
  | '/' => some '/'
  | 'b' => some '\x08'
  | 'f' => some '\x0c'
  | 'n' => some '\n'
  | 'r' => some '\r'
  | 't' => some '\t'
  | _ => none

/-- The pieces of a quoted text up to its closing quote, and the text after it. Control characters
have to be escaped. -/
def scanPieces : List Char → Option (List Piece × List Char)
  | [] => none
  | '"' :: rest => some ([], rest)
  | '\\' :: 'u' :: a :: b :: c :: d :: rest => do
    let n ← hexCode? a b c d
    let (pieces, rest) ← scanPieces rest
    some (.code n :: pieces, rest)
  | '\\' :: c :: rest => do
    let e ← escaped? c
    let (pieces, rest) ← scanPieces rest
    some (.char e :: pieces, rest)
  | c :: rest =>
    if c.toNat < 32 ∨ c = '\\' then none
    else do
      let (pieces, rest) ← scanPieces rest
      some (.char c :: pieces, rest)

/-- Whether a 16-bit code is the first half of a surrogate pair. -/
def isHighHalf (n : Nat) : Bool := 0xD800 ≤ n && n < 0xDC00

/-- Whether a 16-bit code is the second half of a surrogate pair. -/
def isLowHalf (n : Nat) : Bool := 0xDC00 ≤ n && n < 0xE000

/-- Joins the halves of surrogate pairs; none when a half stands alone. -/
def assemble : List Piece → Option (List Char)
  | [] => some []
  | .char c :: rest => (assemble rest).map (c :: ·)
  | [.code n] => if isHighHalf n || isLowHalf n then none else some [Char.ofNat n]
  | .code n :: .code m :: rest =>
    if isHighHalf n then
      if isLowHalf m then
        (assemble rest).map (Char.ofNat (0x10000 + (n - 0xD800) * 1024 + (m - 0xDC00)) :: ·)
      else none
    else if isLowHalf n then none
    else (assemble (.code m :: rest)).map (Char.ofNat n :: ·)
  | .code n :: rest =>
    if isHighHalf n || isLowHalf n then none else (assemble rest).map (Char.ofNat n :: ·)

/-- Reads a quoted text whose opening quote has been read. The text is none when it has a lone half
of a surrogate pair. -/
def scanString (cs : List Char) : Option (Option String × List Char) := do
  let (pieces, rest) ← scanPieces cs
  some ((assemble pieces).map String.ofList, rest)

def scanWord : List Char → List Char → Option (List Char)
  | [], cs => some cs
  | w :: ws, c :: cs => if w = c then scanWord ws cs else none
  | _ :: _, [] => none

/-- A value that is not a list or record; `c` is its first character. -/
def scanScalar (c : Char) (cs : List Char) : Draft × List Char :=
  let word (rest : List Char) (value : Draft) : Draft × List Char :=
    match scanWord rest cs with
    | some rest => (value, rest)
    | none => (broken, [])
  if c = 'n' then word ['u', 'l', 'l'] null
  else if c = 't' then word ['r', 'u', 'e'] (bool true)
  else if c = 'f' then word ['a', 'l', 's', 'e'] (bool false)
  else if c = '"' then
    match scanString cs with
    | some (some s, rest) => (string s, rest)
    | some (none, rest) => (unreadable, rest)
    | none => (broken, [])
  else
    match Numeral.scan (c :: cs) with
    | some (n, rest) =>
      match n.value with
      | some v => (number v, rest)
      | none => (unreadable, rest)
    | none => (broken, [])

/-- What follows the parts of a list or record. -/
inductive Follow where
  /-- Another part, at the given text. -/
  | part (cs : List Char)
  /-- The end, with the text after it. -/
  | close (cs : List Char)
  /-- Neither. -/
  | fault
deriving DecidableEq, Repr

/-- Finds the next part of a list or record that ends with `close`. Between two parts stands a comma,
and none before the end. -/
def follow (close : Char) (first : Bool) (cs : List Char) : Follow :=
  match skipSpace cs with
  | [] => .fault
  | c :: rest =>
    if c = close then .close rest
    else if first then .part (c :: rest)
    else if c = ',' then
      match skipSpace rest with
      | [] => .fault
      | d :: rest => if d = close then .fault else .part (d :: rest)
    else .fault

/-- Whether a draft breaks off, so that no text follows it. -/
def isCut : Draft → Bool
  | broken => true
  | array _ closed => !closed
  | object _ closed => !closed
  | _ => false

mutual

/-- Reads a value at a depth of nesting. The fuel bounds the number of steps. -/
def scanValue (fuel : Nat) (depth : Nat) (cs : List Char) : Draft × List Char :=
  match fuel with
  | 0 => (broken, [])
  | fuel + 1 =>
    match skipSpace cs with
    | [] => (broken, [])
    | c :: rest =>
      if c = '[' then
        let (items, closed, rest) := scanItems fuel (depth + 1) true rest
        if depth < depthMax then (array items closed, rest)
        else if closed then (unreadable, rest) else (broken, [])
      else if c = '\x7b' then
        let (members, closed, rest) := scanMembers fuel (depth + 1) true rest
        if depth < depthMax then (object members closed, rest)
        else if closed then (unreadable, rest) else (broken, [])
      else scanScalar c rest

/-- Reads the items of a list up to its end, or up to the first fault. -/
def scanItems (fuel : Nat) (depth : Nat) (first : Bool) (cs : List Char) :
    List Draft × Bool × List Char :=
  match fuel with
  | 0 => ([], false, [])
  | fuel + 1 =>
    match follow ']' first cs with
    | .close rest => ([], true, rest)
    | .fault => ([], false, [])
    | .part cs =>
      let (item, rest) := scanValue fuel depth cs
      if item.isCut then ([item], false, [])
      else
        let (items, closed, rest) := scanItems fuel depth false rest
        (item :: items, closed, rest)

/-- Reads the members of a record up to its end, or up to the first fault. -/
def scanMembers (fuel : Nat) (depth : Nat) (first : Bool) (cs : List Char) :
    List (Option String × Draft) × Bool × List Char :=
  match fuel with
  | 0 => ([], false, [])
  | fuel + 1 =>
    match follow '\x7d' first cs with
    | .close rest => ([], true, rest)
    | .fault => ([], false, [])
    | .part ('"' :: cs) =>
      match scanString cs with
      | none => ([], false, [])
      | some (name, rest) =>
        match skipSpace rest with
        | ':' :: rest =>
          let (value, rest) := scanValue fuel depth rest
          if value.isCut then ([(name, value)], false, [])
          else
            let (members, closed, rest) := scanMembers fuel depth false rest
            ((name, value) :: members, closed, rest)
        | _ => ([(name, broken)], false, [])
    | .part _ => ([], false, [])

end

/-- Reads the value at the front of a text, and gives the text after it. -/
def scan (cs : List Char) : Draft × List Char := scanValue (2 * cs.length + 2) 0 cs

/-- Reads a text that holds a value and nothing else but blanks. -/
def parse (text : String) : Draft :=
  let (d, rest) := scan text.toList
  if d.isCut then d else if (skipSpace rest).isEmpty then d else broken

/-! ## Settling -/

mutual

/-- The value of a draft that is readable in all its parts. -/
def settle : Draft → Option Json
  | null => some .null
  | bool b => some (.bool b)
  | number n => some (.number n)
  | string s => some (.string s)
  | array items true => (settleItems items).map .array
  | object members true => (settleMembers members).map .object
  | array _ false => none
  | object _ false => none
  | unreadable => none
  | broken => none

def settleItems : List Draft → Option (List Json)
  | [] => some []
  | d :: ds => do
    let j ← settle d
    let js ← settleItems ds
    some (j :: js)

def settleMembers : List (Option String × Draft) → Option (List (String × Json))
  | [] => some []
  | (name, d) :: rest => do
    let name ← name
    let j ← settle d
    let js ← settleMembers rest
    some ((name, j) :: js)

end

/-- The form that a reader expects of a text: any value, a record of known fields (also written as
the list of their values), or a list. Members that are not known need only be well formed. -/
inductive Shape where
  | value
  | record (fields : List (String × Shape))
  | list (items : Shape)

mutual

/-- The value of a draft for a reader of the given shape. -/
def settleAs (shape : Shape) (d : Draft) : Option Json :=
  match shape, d with
  | .list shape, array items true => (items.mapM fun d => settleAs shape d).map .array
  | .record fields, array items true => (settlePositions fields items).map .array
  | .record fields, object members true =>
    (members.mapM fun (name, d) => do
      let name ← name
      settleField fields name d).map fun (found : List (Option (String × Json))) =>
        .object (found.filterMap id)
  | _, d => d.settle
termination_by structural shape

/-- The values of a record written as a list. -/
def settlePositions (fields : List (String × Shape)) (items : List Draft) : Option (List Json) :=
  match fields, items with
  | _, [] => some []
  | [], _ :: _ => none
  | (_, shape) :: fields, d :: items => do
    let j ← settleAs shape d
    let js ← settlePositions fields items
    some (j :: js)
termination_by structural fields

/-- A member of a record if it is a known one; one that is not known has to be well formed. -/
def settleField (fields : List (String × Shape)) (name : String) (d : Draft) :
    Option (Option (String × Json)) :=
  match fields with
  | [] => if d.isCut then none else some none
  | (known, shape) :: fields =>
    if known = name then (settleAs shape d).map fun j => some (name, j)
    else settleField fields name d
termination_by structural fields

end

end Draft

/-- The value of a text, or none when it holds something else. -/
def parse? (text : String) : Option Json := (Draft.parse text).settle

end StepTimer.Json
