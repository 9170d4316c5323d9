/-!
# TOML values

What a TOML text says. Tables keep the order in which their entries were written and remember how
they came about, because that decides what may still be added to them: a table with a header of its
own is not made twice, a table written between braces is complete, and only a table that exists
merely because something lies inside it can be extended.
-/

namespace PulseCircuit.Toml

/-- What brought a table about. -/
inductive Form where
  /-- A header that names it. The table of the whole text counts as one with a header. -/
  | header
  /-- A header that names a table inside it. -/
  | passed
  /-- A dotted key. -/
  | dotted
  /-- Braces. -/
  | braces
  /-- A dotted key between braces. -/
  | dottedInBraces
deriving DecidableEq, Repr

inductive Value where
  | string (text : String)
  | integer (value : Int)
  | real (value : Float)
  | boolean (value : Bool)
  /-- A date, a time of day or both. Which one is not kept. -/
  | dateTime
  | array (elements : List Value)
  /-- The tables of repeated headers. -/
  | tables (elements : List Value)
  | table (form : Form) (entries : List (String × Value))
deriving Repr, Inhabited

abbrev Entries := List (String × Value)

namespace Form

/-- The table is part of a value, and closed once the value is. -/
def isInline : Form → Bool
  | .braces | .dottedInBraces => true
  | .header | .passed | .dotted => false

/-- A dotted key made the table. -/
def isDotted : Form → Bool
  | .dotted | .dottedInBraces => true
  | .header | .passed | .braces => false

/-- Nothing has named the table itself yet. -/
def isImplicit : Form → Bool
  | .passed | .dotted | .dottedInBraces => true
  | .header | .braces => false

end Form

end PulseCircuit.Toml
