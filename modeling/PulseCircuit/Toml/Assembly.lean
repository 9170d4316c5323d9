import PulseCircuit.Toml.Value

/-!
# Putting tables together

Where the entries of a text belong. A path leads from table to table, through the last table of a
row of tables, and makes the tables that are not there. Every way of saying one thing twice has no
result.
-/

namespace PulseCircuit.Toml

namespace Entries

/-- Puts a value in the place of the one under a key. -/
def replace (key : String) (value : Value) (entries : Entries) : Entries :=
  entries.map fun entry => if entry.1 = key then (key, value) else entry

def erase (key : String) (entries : Entries) : Entries := entries.filter (·.1 ≠ key)

end Entries

/-- Who walks along a path, and what that means for the tables on it. -/
structure Walk where
  /-- The form of the tables made on the way. -/
  makes : Form
  /-- A table of this form may be entered. -/
  enters : Form → Bool

/-- Headers enter every table that is not part of a value. -/
def Walk.header : Walk := ⟨.passed, fun form => !form.isInline⟩

/-- Dotted keys enter tables that were not named themselves. -/
def Walk.dottedKey : Walk := ⟨.dotted, fun form => form.isImplicit && !form.isInline⟩

/-- Dotted keys between braces enter tables made by dotted keys there. -/
def Walk.dottedKeyInBraces : Walk := ⟨.dottedInBraces, (· == .dottedInBraces)⟩

/-- Changes the table at the end of a path. The change is told the form of this table. -/
def Walk.change (walk : Walk) (change : Form → Entries → Option Entries) :
    Form → List String → Entries → Option Entries
  | form, [], entries => change form entries
  | _, key :: path, entries =>
    match entries.lookup key with
    | none => do
      let inner ← walk.change change walk.makes path []
      return entries ++ [(key, .table walk.makes inner)]
    | some (.table form inner) =>
      if walk.enters form then do
        return Entries.replace key (.table form (← walk.change change form path inner)) entries
      else none
    | some (.tables elements) =>
      match elements.getLast? with
      | some (.table form inner) => do
        let last := .table form (← walk.change change form path inner)
        return Entries.replace key (.tables (elements.dropLast ++ [last])) entries
      | _ => none
    | some _ => none

/-- A key with its value. All but the last part of the key are a path. -/
structure Pair where
  path : List String
  key : String
  value : Value

/-- Adds an entry to the table its key leads to. Only a table made by a dotted key is added to by
one. -/
def addPair (walk : Walk) (form : Form) (entries : Entries) (pair : Pair) : Option Entries :=
  walk.change
    (fun form entries =>
      if pair.path ≠ [] ∧ !form.isDotted then none
      else
        match entries.lookup pair.key with
        | none => some (entries ++ [(pair.key, pair.value)])
        | some _ => none)
    form pair.path entries

/-- The table between a pair of braces. -/
def inlineTable (pairs : List Pair) : Option Value := do
  let entries ← pairs.foldlM (addPair .dottedKeyInBraces .braces) []
  return .table .braces entries

/-- A header and the pairs below it. -/
structure Section where
  /-- The header adds a table to a row of tables. -/
  repeats : Bool
  path : List String
  key : String
  pairs : List Pair

/-- Adds pairs that stand below a header to a table. -/
def addPairs (pairs : List Pair) (entries : Entries) : Option Entries :=
  pairs.foldlM (addPair .dottedKey .header) entries

/-- Makes the table of a header that is not repeated. It may exist if nothing named it before, and
then goes to the end. -/
def addTable (key : String) (pairs : List Pair) (entries : Entries) : Option Entries := do
  let before ←
    match entries.lookup key with
    | none => some []
    | some (.table .passed inner) => some inner
    | some _ => none
  return Entries.erase key entries ++ [(key, .table .header (← addPairs pairs before))]

/-- Makes one more table of a header that is repeated. -/
def addElement (key : String) (pairs : List Pair) (entries : Entries) : Option Entries := do
  let element := .table .header (← addPairs pairs [])
  match entries.lookup key with
  | none => return entries ++ [(key, .tables [element])]
  | some (.tables elements) => return Entries.replace key (.tables (elements ++ [element])) entries
  | some _ => none

def addSection (entries : Entries) (s : Section) : Option Entries :=
  Walk.header.change
    (fun _ entries =>
      if s.repeats then addElement s.key s.pairs entries else addTable s.key s.pairs entries)
    .header s.path entries

/-- The table of a whole text: the pairs before the first header, and the sections. -/
def assemble (pairs : List Pair) (sections : List Section) : Option Entries := do
  sections.foldlM addSection (← addPairs pairs [])

end PulseCircuit.Toml
