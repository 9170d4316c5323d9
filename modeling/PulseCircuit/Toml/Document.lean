import PulseCircuit.Toml.Assembly
import PulseCircuit.Toml.Word

/-!
# TOML documents

Reads a whole text: values, keys with their values, headers, and at last the table they make up.
Arrays may go over several lines and end with a comma, tables between braces may not. Values lie
inside each other, and keys have parts, to a limited depth, and this depth is what the readers
recurse on. A loop over the parts of one thing takes up at least one character in each turn, so the
number of characters left bounds it.
-/

namespace PulseCircuit.Toml

/-- How many values may lie inside each other, and how many parts a key may have. -/
def maxDepth : Nat := 79

namespace Reader

/-- Reads the elements of an array up to its closing bracket. -/
def elements (value : Reader Value) : Nat → Reader (List Value)
  | 0 => failure
  | limit + 1 => do
    skipAll
    if ← accept ']' then return []
    let first ← value
    skipAll
    if ← accept ',' then return first :: (← elements value limit)
    expect ']'
    return [first]

/-- Reads a key, an equals sign and a value. -/
def pair (value : Reader Value) : Reader Pair := do
  let parts ← keyParts maxDepth
  expect '='
  skipBlanks
  let value ← value
  match parts.getLast? with
  | some key => return ⟨parts.dropLast, key, value⟩
  | none => failure

/-- Reads pairs on one line up to the closing brace. -/
def pairs (value : Reader Value) : Nat → Reader (List Pair)
  | 0 => failure
  | limit + 1 => do
    let first ← pair value
    skipBlanks
    if ← accept ',' then return first :: (← pairs value limit)
    expect '}'
    return [first]

/-- Reads a table between braces, behind the first of them. -/
def restOfTable (value : Reader Value) : Reader Value := do
  skipBlanks
  if ← accept '}' then return .table .braces []
  inlineTable (← pairs value ((← left) + 1))

/-- Reads a value without brackets and braces. -/
def scalar : Reader Value := do
  match ← peek with
  | some '"' => return .string (← string .double)
  | some '\'' => return .string (← string .single)
  | _ => word

/-- Reads a value that has values inside each other to at most the given depth. -/
def value : Nat → Reader Value
  | 0 => scalar
  | depth + 1 => do
    if ← accept '[' then return .array (← elements (value depth) ((← left) + 1))
    if ← accept '{' then restOfTable (value depth)
    else scalar

/-- Reads a header, without the pairs below it. -/
def header : Reader Section := do
  expect '['
  let repeats ← accept '['
  let parts ← keyParts maxDepth
  expect ']'
  if repeats then expect ']'
  match parts.getLast? with
  | some key => return ⟨repeats, parts.dropLast, key, []⟩
  | none => failure

/-- Reads the pairs up to the next header or to the end. -/
def body : Nat → Reader (List Pair)
  | 0 => failure
  | limit + 1 => do
    skipBlanks
    match ← peek with
    | none | some '[' => return []
    | some '#' | some '\n' =>
      endLine
      body limit
    | some _ =>
      let pair ← pair (value maxDepth)
      endLine
      return pair :: (← body limit)

/-- Reads sections up to the end. -/
def sections : Nat → Reader (List Section)
  | 0 => failure
  | limit + 1 => do
    if (← left) = 0 then return []
    let start ← header
    endLine
    let pairs ← body ((← left) + 1)
    return { start with pairs := pairs } :: (← sections limit)

/-- Reads a whole text. A byte order mark in front of it does not count. -/
def document : Reader Entries := do
  let _ ← accept '\ufeff'
  let pairs ← body ((← left) + 1)
  assemble pairs (← sections ((← left) + 1))

end Reader

/-- The table a text describes, if it is TOML. -/
def read? (text : String) : Option Entries := Reader.document.run' (joinLineEnds text.toList)

end PulseCircuit.Toml
