import PulseCircuit.Hex

/-!
# Lines, strings and keys of TOML

The parts of a TOML text below its values. A line ends with a line feed, or with a carriage return
and a line feed, and the two are made one before anything else is read. Besides line feeds and tabs
no control character may stand anywhere.

A reader takes the characters that are left and returns what it read with those still left, if what
it wants stands in front.
-/

namespace PulseCircuit.Toml

abbrev Reader := StateT (List Char) Option

/-- Makes both kinds of line ends one. -/
def joinLineEnds : List Char → List Char
  | '\r' :: '\n' :: rest => '\n' :: joinLineEnds rest
  | c :: rest => c :: joinLineEnds rest
  | [] => []

def isBlank (c : Char) : Bool := c == ' ' || c == '\t'

/-- The character may stand in a comment, and unless it has a meaning there in a string. -/
def isText (c : Char) : Bool := c == '\t' || (' ' ≤ c && c != '\x7f')

/-- The character may stand in a key without quotation marks. -/
def isKeyChar (c : Char) : Bool := c.isAlphanum || c == '_' || c == '-'

namespace Reader

/-- The characters in front that are of a kind. -/
def takeWhile (kind : Char → Bool) : Reader (List Char) := fun cs =>
  some (cs.takeWhile kind, cs.dropWhile kind)

/-- Passes over a character if it stands in front, and says whether it did. -/
def accept (c : Char) : Reader Bool
  | d :: rest => if d = c then some (true, rest) else some (false, d :: rest)
  | [] => some (false, [])

def expect (c : Char) : Reader Unit := do
  guard (← accept c)

/-- Passes over a word if it stands in front, and says whether it did. -/
def acceptWord (word : List Char) : Reader Bool := fun cs =>
  if word.isPrefixOf cs then some (true, cs.drop word.length) else some (false, cs)

/-- The next character, which stays where it is. -/
def peek : Reader (Option Char) := fun cs => some (cs.head?, cs)

/-- How many characters are left. -/
def left : Reader Nat := fun cs => some (cs.length, cs)

/-! ## Between values -/

def skipBlanks : Reader Unit := do
  let _ ← takeWhile isBlank

/-- Passes over a comment, if there is one. The end of the line stays. -/
def skipComment : Reader Unit := do
  if ← accept '#' then
    let _ ← takeWhile isText

/-- Passes over what may stand behind something that has to be the last on its line. -/
def endLine : Reader Unit := do
  skipBlanks
  skipComment
  unless ← accept '\n' do guard ((← left) = 0)

/-- Passes over blanks, comments and line ends, up to so many lines. -/
def skipLines : Nat → Reader Unit
  | 0 => failure
  | limit + 1 => do
    skipBlanks
    if ← accept '#' then
      let _ ← takeWhile isText
      expect '\n'
      skipLines limit
    else if ← accept '\n' then skipLines limit

/-- Passes over blanks, comments and line ends. -/
def skipAll : Reader Unit := do
  skipLines ((← left) + 1)

end Reader

/-! ## Strings -/

/-- The character with the code that hexadecimal digits write. -/
def scalar? (digits : List Char) : Option Char := do
  let code ← digits.foldlM (fun code c => do return 16 * code + (← Hex.value? c)) 0
  if code.isValidChar then some (Char.ofNat code) else none

/-- The character that a backslash and a letter stand for. -/
def escaped? : Char → Option Char
  | '"' => some '"'
  | '\\' => some '\\'
  | 'b' => some '\x08'
  | 'f' => some '\x0c'
  | 'n' => some '\n'
  | 'r' => some '\r'
  | 't' => some '\t'
  | _ => none

def isSpace (c : Char) : Bool := isBlank c || c == '\n'

/-- Only blanks stand before the end of the line. -/
def lineEnds (cs : List Char) : Bool := (cs.dropWhile isBlank).head? == some '\n'

/-- Resolves the escapes of a string. A backslash at the end of a line takes away all that follows
up to the next visible character, and `folding` says that this is going on. -/
def resolve : Bool → List Char → Option (List Char)
  | _, [] => some []
  | _, '\\' :: 'u' :: a :: b :: c :: d :: rest => do
    return (← scalar? [a, b, c, d]) :: (← resolve false rest)
  | _, '\\' :: 'U' :: a :: b :: c :: d :: e :: f :: g :: h :: rest => do
    return (← scalar? [a, b, c, d, e, f, g, h]) :: (← resolve false rest)
  | _, '\\' :: c :: rest =>
    match escaped? c with
    | some escaped => (resolve false rest).map (escaped :: ·)
    | none => if lineEnds (c :: rest) then resolve true (c :: rest) else none
  | folding, c :: rest =>
    if folding && isSpace c then resolve true rest else (resolve false rest).map (c :: ·)

/-- The quotation marks of a string. Escapes have a meaning between double ones only. -/
inductive Mark where
  | double
  | single
deriving DecidableEq, Repr

def Mark.char : Mark → Char
  | .double => '"'
  | .single => '\''

/-- What stands up to the mark that closes a string on one line. -/
def spanLine (mark : Mark) : List Char → Option (List Char × List Char)
  | [] => none
  | c :: rest =>
    if c = mark.char then some ([], rest)
    else if mark = .double ∧ c = '\\' then
      match rest with
      | [] => none
      | d :: rest =>
        if isText d then (spanLine mark rest).map fun (text, rest) => (c :: d :: text, rest)
        else none
    else if isText c then (spanLine mark rest).map fun (text, rest) => (c :: text, rest)
    else none

/-- The marks between the first three that could close a string of several lines and those that do.
There may be two of them. -/
def closing (mark : Mark) (cs : List Char) : Option (List Char × List Char) :=
  let marks := cs.takeWhile (· = mark.char)
  if marks.length ≤ 2 then some (marks, cs.drop marks.length) else none

/-- What stands up to the three marks that close a string of several lines. -/
def spanLines (mark : Mark) : List Char → Option (List Char × List Char)
  | [] => none
  | c :: rest =>
    if [mark.char, mark.char, mark.char].isPrefixOf (c :: rest) then closing mark (rest.drop 2)
    else if mark = .double ∧ c = '\\' then
      match rest with
      | [] => none
      | d :: rest => (spanLines mark rest).map fun (text, rest) => (c :: d :: text, rest)
    else if isText c || c = '\n' then
      (spanLines mark rest).map fun (text, rest) => (c :: text, rest)
    else none

/-- The string that was meant by what stood between marks. -/
def Mark.meaning? : Mark → List Char → Option String
  | .double, raw => (resolve false raw).map String.ofList
  | .single, raw => some (String.ofList raw)

namespace Reader

/-- Reads a string on one line, behind its opening mark. -/
def restOfLine (mark : Mark) : Reader String := do
  mark.meaning? (← spanLine mark)

/-- Reads a string of several lines, behind its three opening marks. A line end right behind them
does not count. -/
def restOfLines (mark : Mark) : Reader String := do
  let _ ← accept '\n'
  mark.meaning? (← spanLines mark)

/-- Reads a string of either kind, opening marks included. -/
def string (mark : Mark) : Reader String := do
  if ← acceptWord [mark.char, mark.char, mark.char] then restOfLines mark
  else
    expect mark.char
    restOfLine mark

/-! ## Keys -/

/-- Reads a key without dots. Strings that are keys stay on one line. -/
def simpleKey : Reader String := do
  if ← accept '"' then restOfLine .double
  else if ← accept '\'' then restOfLine .single
  else
    let word ← takeWhile isKeyChar
    guard (!word.isEmpty)
    return String.ofList word

/-- Reads the parts of a dotted key, up to so many. -/
def keyParts : Nat → Reader (List String)
  | 0 => failure
  | limit + 1 => do
    skipBlanks
    let key ← simpleKey
    skipBlanks
    if ← accept '.' then return key :: (← keyParts limit)
    return [key]

end Reader

end PulseCircuit.Toml
