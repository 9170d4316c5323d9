import PulseCircuit.Hex
import PulseCircuit.Json.Numeral

/-!
# Reading JSON

A text is read into a tree that keeps what was written, strings and numbers included, because
whether they can be used depends on what they are used for. A text that breaks off, or stops being
JSON, is read up to that place, and there the tree has a `broken` leaf, always its last one. Whoever
goes through the tree in order thus meets the faults of the text and its own in the order of the
text.
-/

namespace PulseCircuit.Json

/-- What stands between the quotation marks of a string. Its escapes are well formed, but they need
not stand for characters. -/
structure Quoted where
  raw : List Char
deriving DecidableEq, Repr

inductive Source where
  | null
  | bool (value : Bool)
  | number (numeral : Numeral)
  | string (text : Quoted)
  | array (elements : List Source)
  | object (members : List (Quoted × Source))
  /-- Here the text is not JSON. -/
  | broken
deriving Repr, Inhabited

/-! ## Strings -/

namespace Quoted

/-- The 16-bit unit that four hexadecimal digits stand for. -/
def unit? (a b c d : Char) : Option Nat := do
  return 4096 * (← Hex.value? a) + 256 * (← Hex.value? b) + 16 * (← Hex.value? c) + (← Hex.value? d)

/-- The character a one-letter escape stands for. -/
def escaped? : Char → Option Char
  | '"' => some '"'
  | '\\' => some '\\'
  | '/' => some '/'
  | 'b' => some '\x08'
  | 'f' => some '\x0c'
  | 'n' => some '\n'
  | 'r' => some '\r'
  | 't' => some '\t'
  | _ => none

/-- Resolves escapes. Two units that form a surrogate pair stand for one character, and half of
such a pair stands for nothing. -/
def unescape : List Char → List Char → Option (List Char)
  | [], done => some done.reverse
  | '\\' :: 'u' :: a :: b :: c :: d :: rest, done => do
    let unit ← unit? a b c d
    if 0xDC00 ≤ unit ∧ unit < 0xE000 then none
    else if 0xD800 ≤ unit ∧ unit < 0xDC00 then
      match rest with
      | '\\' :: 'u' :: e :: f :: g :: h :: rest =>
        let low ← unit? e f g h
        if 0xDC00 ≤ low ∧ low < 0xE000 then
          unescape rest (Char.ofNat (0x10000 + 1024 * (unit - 0xD800) + (low - 0xDC00)) :: done)
        else none
      | _ => none
    else unescape rest (Char.ofNat unit :: done)
  | '\\' :: c :: rest, done => do unescape rest ((← escaped? c) :: done)
  | c :: rest, done => unescape rest (c :: done)
termination_by structural text => text

/-- The string meant, if every escape stands for a character. -/
def text? (q : Quoted) : Option String := (unescape q.raw []).map String.ofList

end Quoted

/-! ## Scanning -/

def isBlank (c : Char) : Bool := c == ' ' || c == '\n' || c == '\t' || c == '\r'

def skipBlanks (cs : List Char) : List Char := cs.dropWhile isBlank

/-- Reads a string behind its opening quotation mark, up to and with the closing one. -/
def readQuoted : List Char → List Char → Option (Quoted × List Char)
  | [], _ => none
  | '"' :: rest, done => some (⟨done.reverse⟩, rest)
  | '\\' :: 'u' :: a :: b :: c :: d :: rest, done =>
    if (Quoted.unit? a b c d).isSome then readQuoted rest (d :: c :: b :: a :: 'u' :: '\\' :: done)
    else none
  | '\\' :: c :: rest, done =>
    if (Quoted.escaped? c).isSome then readQuoted rest (c :: '\\' :: done) else none
  | c :: rest, done => if c.toNat < 0x20 then none else readQuoted rest (c :: done)

/-- The digits in front, and what follows them. -/
def spanDigits (cs : List Char) : List Char × List Char :=
  (cs.takeWhile Char.isDigit, cs.dropWhile Char.isDigit)

/-- Reads the digits before the point. A zero stands alone. -/
def readWhole (cs : List Char) : Option (List Char × List Char) :=
  match spanDigits cs with
  | ([], _) => none
  | ('0' :: _ :: _, _) => none
  | (digits, rest) => some (digits, rest)

/-- Reads a point with the digits behind it, if there is one. -/
def readFraction : List Char → Option (List Char × List Char)
  | '.' :: rest =>
    match spanDigits rest with
    | ([], _) => none
    | (digits, rest) => some (digits, rest)
  | cs => some ([], cs)

/-- Reads the sign and the digits of an exponent. -/
def readExponentDigits (cs : List Char) : Option ((Bool × List Char) × List Char) :=
  let (negative, rest) := Decimal.splitSign cs
  match spanDigits rest with
  | ([], _) => none
  | (digits, rest) => some ((negative, digits), rest)

/-- Reads an exponent, if there is one. -/
def readExponent : List Char → Option (Option (Bool × List Char) × List Char)
  | 'e' :: rest | 'E' :: rest =>
    (readExponentDigits rest).map fun (exponent, rest) => (some exponent, rest)
  | cs => some (none, cs)

def readNumeral (cs : List Char) : Option (Numeral × List Char) := do
  let (negative, cs) :=
    match cs with
    | '-' :: rest => (true, rest)
    | rest => (false, rest)
  let (whole, cs) ← readWhole cs
  let (fraction, cs) ← readFraction cs
  let (exponent, cs) ← readExponent cs
  return (⟨negative, whole, fraction, exponent⟩, cs)

/-! ## Reading values

Each reader returns what it read and what is left of the text, or no rest at all if the text broke
off inside. No call is more than two levels deeper than the characters read, so a fuel of twice the
length is enough. -/

/-- The leaf, and the rest if the word stands in front. -/
def readWord (word : String) (leaf : Source) (cs : List Char) : Source × Option (List Char) :=
  if word.toList.isPrefixOf cs then (leaf, some (cs.drop word.length)) else (.broken, none)

/-- Where a member should be and is not. -/
def brokenMember : Quoted × Source := (⟨[]⟩, .broken)

mutual

def readValue : Nat → List Char → Source × Option (List Char)
  | 0, _ => (.broken, none)
  | fuel + 1, cs =>
    match skipBlanks cs with
    | 'n' :: rest => readWord "null" .null ('n' :: rest)
    | 't' :: rest => readWord "true" (.bool true) ('t' :: rest)
    | 'f' :: rest => readWord "false" (.bool false) ('f' :: rest)
    | '"' :: rest =>
      match readQuoted rest [] with
      | some (text, rest) => (.string text, some rest)
      | none => (.broken, none)
    | '[' :: rest =>
      match skipBlanks rest with
      | ']' :: rest => (.array [], some rest)
      | rest =>
        let (elements, rest) := readElements fuel rest
        (.array elements, rest)
    | '{' :: rest =>
      match skipBlanks rest with
      | '}' :: rest => (.object [], some rest)
      | rest =>
        let (members, rest) := readMembers fuel rest
        (.object members, rest)
    | cs =>
      match readNumeral cs with
      | some (numeral, rest) => (.number numeral, some rest)
      | none => (.broken, none)

def readElements : Nat → List Char → List Source × Option (List Char)
  | 0, _ => ([.broken], none)
  | fuel + 1, cs =>
    match readValue fuel cs with
    | (value, none) => ([value], none)
    | (value, some rest) =>
      match skipBlanks rest with
      | ',' :: rest =>
        let (values, rest) := readElements fuel rest
        (value :: values, rest)
      | ']' :: rest => ([value], some rest)
      | _ => ([value, .broken], none)

def readMembers : Nat → List Char → List (Quoted × Source) × Option (List Char)
  | 0, _ => ([brokenMember], none)
  | fuel + 1, cs =>
    match skipBlanks cs with
    | '"' :: rest =>
      match readQuoted rest [] with
      | none => ([brokenMember], none)
      | some (key, rest) =>
        match skipBlanks rest with
        | ':' :: rest =>
          match readValue fuel rest with
          | (value, none) => ([(key, value)], none)
          | (value, some rest) =>
            match skipBlanks rest with
            | ',' :: rest =>
              let (members, rest) := readMembers fuel rest
              ((key, value) :: members, rest)
            | '}' :: rest => ([(key, value)], some rest)
            | _ => ([(key, value), brokenMember], none)
        | _ => ([(key, .broken)], none)
    | _ => ([brokenMember], none)

end

/-- A text read as one value. -/
structure Document where
  value : Source
  /-- Nothing but blanks follows the value. -/
  ends : Bool
deriving Repr

def Document.read (text : List Char) : Document :=
  let (value, rest) := readValue (2 * text.length + 2) text
  { value := value
    ends :=
      match rest with
      | some rest => (skipBlanks rest).isEmpty
      | none => false }

/-! ## Looking over what was read -/

namespace Source

mutual

/-- The text was JSON here. -/
def isWhole : Source → Bool
  | .broken => false
  | .array elements => areWhole elements
  | .object members => membersAreWhole members
  | _ => true

def areWhole : List Source → Bool
  | [] => true
  | value :: values => value.isWhole && areWhole values

def membersAreWhole : List (Quoted × Source) → Bool
  | [] => true
  | (_, value) :: members => value.isWhole && membersAreWhole members

end

mutual

/-- Everything here can be used: strings stand for characters, numbers are not too large, and no
more than so many containers lie inside each other. -/
def isUsable : Nat → Source → Bool
  | _, .broken => false
  | _, .null => true
  | _, .bool _ => true
  | _, .number numeral => numeral.float?.isSome
  | _, .string text => text.text?.isSome
  | depth, .array elements => depth != 0 && areUsable (depth - 1) elements
  | depth, .object members => depth != 0 && membersAreUsable (depth - 1) members

def areUsable : Nat → List Source → Bool
  | _, [] => true
  | depth, value :: values => isUsable depth value && areUsable depth values

def membersAreUsable : Nat → List (Quoted × Source) → Bool
  | _, [] => true
  | depth, (key, value) :: members =>
    key.text?.isSome && isUsable depth value && membersAreUsable depth members

end

end Source

end PulseCircuit.Json
