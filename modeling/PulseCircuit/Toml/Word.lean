import PulseCircuit.Decimal.Nearest
import PulseCircuit.IntRange
import PulseCircuit.Toml.Text
import PulseCircuit.Toml.Value

/-!
# Words

Values written without marks and brackets: truth values, integers, reals, dates and times. None of
the characters in them can follow a value, so a word is read up to its end before it is judged.
-/

namespace PulseCircuit.Toml

def isWordChar (c : Char) : Bool := isKeyChar c || c == '+' || c == '.' || c == ':'

/-! ## Numbers -/

/-- Digits without the underscores between them. An underscore stands between two digits. -/
def digits? (isDigit : Char → Bool) : List Char → Option (List Char)
  | [] => none
  | [c] => if isDigit c then some [c] else none
  | c :: '_' :: rest => if isDigit c then (digits? isDigit rest).map (c :: ·) else none
  | c :: rest => if isDigit c then (digits? isDigit rest).map (c :: ·) else none

/-- Decimal digits of which the first is not a needless zero. -/
def wholeDigits? (cs : List Char) : Option (List Char) :=
  match digits? Char.isDigit cs with
  | some ('0' :: _ :: _) => none
  | digits => digits

def isHexDigit (c : Char) : Bool := (Hex.value? c).isSome

/-- The integer of 64 bits that digits write in a base. -/
def inBase (base : Nat) (digits : List Char) : Option Int :=
  let value := digits.foldl (fun value c => base * value + (Hex.value? c).getD 0) 0
  IntRange.bits64.accept? value

/-- An integer of 64 bits. Other bases than ten have no sign. -/
def integer? (word : List Char) : Option Int :=
  match word with
  | '0' :: 'x' :: rest => do inBase 16 (← digits? isHexDigit rest)
  | '0' :: 'o' :: rest => do inBase 8 (← digits? (fun c => '0' ≤ c && c ≤ '7') rest)
  | '0' :: 'b' :: rest => do inBase 2 (← digits? (fun c => c == '0' || c == '1') rest)
  | _ => do
    let (negative, rest) := Decimal.splitSign word
    IntRange.bits64.accept? (Decimal.signed negative (Decimal.valueOf (← wholeDigits? rest)))

/-- The digits behind the point of a number before its exponent, none if there is no point. -/
def fraction? : List Char → Option (List Char)
  | [] => some []
  | _ :: rest => digits? Char.isDigit rest

/-- The value of an exponent, which begins with its letter. -/
def exponent? : List Char → Option Int
  | [] => some 0
  | _ :: rest => do
    let (negative, rest) := Decimal.splitSign rest
    return Decimal.signed negative (Decimal.valueOf (← digits? Char.isDigit rest))

/-- A number with a point or an exponent. One that is too large has no positive value. -/
def decimal? (negative : Bool) (word : List Char) : Option Float := do
  let isExponent (c : Char) : Bool := c == 'e' || c == 'E'
  guard (word.any fun c => c == '.' || isExponent c)
  let mantissa := word.takeWhile fun c => !isExponent c
  let whole ← wholeDigits? (mantissa.takeWhile (· ≠ '.'))
  let fraction ← fraction? (mantissa.dropWhile (· ≠ '.'))
  let exponent ← exponent? (word.dropWhile fun c => !isExponent c)
  let x := Decimal.toFloat ⟨Decimal.valueOf (whole ++ fraction), exponent - fraction.length⟩
  if negative then some (-x)
  else if x.isInf then none
  else some x

/-- A real number, or one of the words for what is not a number. -/
def real? (word : List Char) : Option Float :=
  let (negative, rest) := Decimal.splitSign word
  let signed (x : Float) : Float := if negative then -x else x
  if rest = "inf".toList then some (signed Decimal.infinity)
  else if rest = "nan".toList then some (signed (0 / 0))
  else decimal? negative rest

/-! ## Dates and times -/

/-- The number that so many digits in front write, and what follows them. -/
def padded? (width : Nat) (cs : List Char) : Option (Nat × List Char) :=
  let digits := cs.take width
  if digits.length = width ∧ digits.all Char.isDigit then
    some (Decimal.valueOf digits, cs.drop width)
  else none

/-- Behind a character that has to stand in front. -/
def behind? (c : Char) : List Char → Option (List Char)
  | d :: rest => if d = c then some rest else none
  | [] => none

def isLeap (year : Nat) : Bool := (year % 4 = 0 ∧ year % 100 ≠ 0) ∨ year % 400 = 0

def daysIn (year month : Nat) : Nat :=
  match month with
  | 2 => if isLeap year then 29 else 28
  | 4 | 6 | 9 | 11 => 30
  | _ => 31

/-- Behind a date. -/
def date? (cs : List Char) : Option (List Char) := do
  let (year, cs) ← padded? 4 cs
  let (month, cs) ← padded? 2 (← behind? '-' cs)
  let (day, cs) ← padded? 2 (← behind? '-' cs)
  guard (1 ≤ month ∧ month ≤ 12 ∧ 1 ≤ day ∧ day ≤ daysIn year month)
  return cs

/-- Behind hours and minutes. -/
def hoursAndMinutes? (cs : List Char) : Option (List Char) := do
  let (hours, cs) ← padded? 2 cs
  let (minutes, cs) ← padded? 2 (← behind? ':' cs)
  guard (hours ≤ 23 ∧ minutes ≤ 59)
  return cs

/-- Behind the fraction of a second, if there is one. -/
def secondFraction? : List Char → Option (List Char)
  | '.' :: c :: rest => if c.isDigit then some (rest.dropWhile Char.isDigit) else none
  | '.' :: [] => none
  | cs => some cs

/-- Behind a time of day. -/
def time? (cs : List Char) : Option (List Char) := do
  let (seconds, cs) ← padded? 2 (← behind? ':' (← hoursAndMinutes? cs))
  guard (seconds ≤ 60)
  secondFraction? cs

/-- Behind the distance from universal time, if there is one. -/
def offset? : List Char → Option (List Char)
  | 'Z' :: rest | 'z' :: rest => some rest
  | '+' :: rest | '-' :: rest => hoursAndMinutes? rest
  | cs => some cs

/-- A whole time of day with or without an offset. -/
def isTime (word : List Char) : Bool := ((time? word).bind offset?) == some []

/-- A date, a time, or both. -/
def isDateTime (word : List Char) : Bool :=
  time? word == some [] ||
    match date? word with
    | some [] => true
    | some ('T' :: rest) | some ('t' :: rest) => isTime rest
    | _ => false

/-! ## Words -/

def wordValue? (word : List Char) : Option Value :=
  if word = "true".toList then some (.boolean true)
  else if word = "false".toList then some (.boolean false)
  else
    match integer? word, real? word with
    | some n, _ => some (.integer n)
    | none, some x => some (.real x)
    | none, none => if isDateTime word then some .dateTime else none

namespace Reader

/-- Passes over a blank and a time behind a date. -/
def timeOfDate : Reader Unit := fun cs =>
  match cs with
  | ' ' :: rest =>
    if isTime (rest.takeWhile isWordChar) then some ((), rest.dropWhile isWordChar)
    else some ((), cs)
  | _ => some ((), cs)

/-- Reads a value without marks and brackets. -/
def word : Reader Value := do
  let word ← takeWhile isWordChar
  if date? word == some [] then timeOfDate
  wordValue? word

end Reader

end PulseCircuit.Toml
