import PulseCircuit.Decimal.Notation
import PulseCircuit.Hex

/-!
# Writing JSON

A document to be written, and its compact text: no blanks, members in the order given.
-/

namespace PulseCircuit.Json

inductive Value where
  | null
  | bool (value : Bool)
  | int (value : Int)
  | real (value : Float)
  | string (text : String)
  | array (elements : List Value)
  | object (members : List (String × Value))
deriving Repr, Inhabited

/-- Numbers are written out in places from five zeros behind the point to sixteen places before
it. -/
def numberNotation : DecimalNotation := ⟨-5, 15⟩

/-- A whole number. -/
def writeInt (n : Int) : List Char :=
  if n < 0 then '-' :: Decimal.digitsOf n.natAbs else Decimal.digitsOf n.natAbs

/-- A floating-point number. JSON has no word for what is not finite. -/
def writeReal (x : Float) : List Char :=
  (Decimal.writeFloat? numberNotation x).getD "null".toList

/-- A character inside quotation marks. Only what must be is escaped. -/
def escape (c : Char) : List Char :=
  match c with
  | '"' => ['\\', '"']
  | '\\' => ['\\', '\\']
  | '\x08' => ['\\', 'b']
  | '\x0c' => ['\\', 'f']
  | '\n' => ['\\', 'n']
  | '\r' => ['\\', 'r']
  | '\t' => ['\\', 't']
  | c =>
    if c.toNat < 0x20 then ['\\', 'u', '0', '0', Hex.digit (c.toNat / 16), Hex.digit (c.toNat % 16)]
    else [c]

def writeString (s : String) : List Char := '"' :: (s.toList.flatMap escape ++ ['"'])

namespace Value

mutual

def write : Value → List Char
  | .null => "null".toList
  | .bool true => "true".toList
  | .bool false => "false".toList
  | .int n => writeInt n
  | .real x => writeReal x
  | .string s => writeString s
  | .array [] => "[]".toList
  | .array (value :: values) => '[' :: (value.write ++ writeElements values)
  | .object [] => "{}".toList
  | .object ((key, value) :: members) =>
    '{' :: (writeString key ++ ':' :: (value.write ++ writeMembers members))

/-- The elements after the first, and the closing bracket. -/
def writeElements : List Value → List Char
  | [] => [']']
  | value :: values => ',' :: (value.write ++ writeElements values)

/-- The members after the first, and the closing brace. -/
def writeMembers : List (String × Value) → List Char
  | [] => ['}']
  | (key, value) :: members =>
    ',' :: (writeString key ++ ':' :: (value.write ++ writeMembers members))

end

/-- The text of a document. -/
def text (value : Value) : String := String.ofList value.write

end Value

end PulseCircuit.Json
