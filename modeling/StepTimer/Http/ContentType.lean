/-
Content types. A content type is a type, a slash, a subtype, and parameters behind semicolons; a
body is taken for a value of the data format when its type is `application` and its subtype is
`json` or ends in `+json`, in small or capital letters.
-/
namespace StepTimer.Http.ContentType

/-- The characters of a name: letters, digits and some signs of ASCII. -/
def isToken (c : Char) : Bool :=
  c.isAlphanum || "!#$%&'*+-.^_`|~".toList.contains c

def isQuotable (c : Char) : Bool := 32 ≤ c.toNat && c.toNat < 127 && c ≠ '"'

/-- The part of a parameter that is being read. -/
inductive Place where
  | name (started : Bool)
  | value (started : Bool)
  | quoted (started : Bool)
  | afterQuote
deriving DecidableEq, Repr

/-- Whether the text behind the first semicolon is a list of parameters. -/
def areParameters : Place → List Char → Bool
  | .name started, [] => !started
  | .name started, c :: cs =>
    if c = ' ' && !started then areParameters (.name false) cs
    else if isToken c then areParameters (.name true) cs
    else c = '=' && started && areParameters (.value false) cs
  | .value _, [] => true
  | .value started, c :: cs =>
    if c = '"' && !started then areParameters (.quoted false) cs
    else if isToken c then areParameters (.value true) cs
    else c = ';' && started && areParameters (.name false) cs
  | .quoted _, [] => false
  | .quoted started, c :: cs =>
    if c = '"' then started && areParameters .afterQuote cs
    else isQuotable c && areParameters (.quoted true) cs
  | .afterQuote, [] => true
  | .afterQuote, c :: cs =>
    if c = ';' then areParameters (.name false) cs else c = ' ' && areParameters .afterQuote cs

/-- The part of a subtype behind its last plus sign, if it has one after its first character. -/
def suffix? (subtype : List Char) : Option (List Char) :=
  if (subtype.drop 1).contains '+' then some (subtype.reverse.takeWhile fun c => c ≠ '+').reverse
  else none

/-- Whether a content type means a value of the data format. -/
def isJson (text : String) : Bool :=
  let cs := text.toList.map Char.toLower
  let type := cs.takeWhile fun c => c ≠ '/'
  let rest := (cs.dropWhile fun c => c ≠ '/').drop 1
  let subtype := rest.takeWhile fun c => c ≠ ';'
  let parameters := (rest.dropWhile fun c => c ≠ ';').drop 1
  let json := "json".toList
  type = "application".toList && !subtype.isEmpty && subtype.all isToken
    && (subtype = json || suffix? subtype = some json)
    && areParameters (.name false) parameters

end StepTimer.Http.ContentType
