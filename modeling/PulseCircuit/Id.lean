/-!
# Ids

Cells and wires are named on one line of integers: `0, 1, 2, …` are cells, `-1, -2, …` are wires,
and `0` is the root cell. Which of the two an id names is a sign check, so one table can hold both.

`CellId` and `WireId` say which side was meant. A pool of ids read from a file may count from the
wrong side, so the sign is checked where an id comes in (`CellId.ofRaw?`, `WireId.ofRaw?`) and is
not part of the types.
-/

namespace PulseCircuit

/-- The two things an id can name. -/
inductive Noun where
  | cell
  | wire
deriving DecidableEq, Repr

/-- The word used in messages. -/
def Noun.text : Noun → String
  | .cell => "cell"
  | .wire => "wire"

/-- Any id, of a cell or of a wire. -/
structure Id where
  raw : Int
deriving DecidableEq, Repr, Inhabited

/-- An id meant to name a cell. -/
structure CellId where
  raw : Int
deriving DecidableEq, Repr, Inhabited

/-- An id meant to name a wire. -/
structure WireId where
  raw : Int
deriving DecidableEq, Repr, Inhabited

namespace CellId

/-- The cell every other cell lies below. -/
def root : CellId := ⟨0⟩

/-- Accepts the integers from zero up. -/
def ofRaw? (raw : Int) : Option CellId :=
  if 0 ≤ raw then some ⟨raw⟩ else none

def toId (id : CellId) : Id := ⟨id.raw⟩

instance : Coe CellId Id := ⟨toId⟩

def isRoot (id : CellId) : Bool := id == root

theorem toId_inj {a b : CellId} : a.toId = b.toId ↔ a = b := by
  cases a; cases b; simp [toId]

theorem ofRaw?_eq_some_iff {raw : Int} {id : CellId} :
    ofRaw? raw = some id ↔ 0 ≤ raw ∧ id = ⟨raw⟩ := by
  unfold ofRaw?
  split
  next h => simp [h, eq_comm]
  next h => simp [h]

end CellId

namespace WireId

/-- Accepts the integers below zero. -/
def ofRaw? (raw : Int) : Option WireId :=
  if raw < 0 then some ⟨raw⟩ else none

def toId (id : WireId) : Id := ⟨id.raw⟩

instance : Coe WireId Id := ⟨toId⟩

theorem toId_inj {a b : WireId} : a.toId = b.toId ↔ a = b := by
  cases a; cases b; simp [toId]

theorem ofRaw?_eq_some_iff {raw : Int} {id : WireId} :
    ofRaw? raw = some id ↔ raw < 0 ∧ id = ⟨raw⟩ := by
  unfold ofRaw?
  split
  next h => simp [h, eq_comm]
  next h => simp [h]

end WireId

namespace Id

def isCell (id : Id) : Bool := 0 ≤ id.raw

def isWire (id : Id) : Bool := id.raw < 0

/-- What the sign says the id names. -/
def noun (id : Id) : Noun :=
  if id.isCell then .cell else .wire

def asCell? (id : Id) : Option CellId := CellId.ofRaw? id.raw

def asWire? (id : Id) : Option WireId := WireId.ofRaw? id.raw

/-- The noun, a hash sign and the integer, as in `cell#0` and `wire#-4`. -/
def text (id : Id) : String :=
  id.noun.text ++ "#" ++ toString id.raw

/-- Every id names exactly one of the two. -/
theorem isWire_eq_not_isCell (id : Id) : id.isWire = !id.isCell := by
  simp only [isWire, isCell]
  by_cases h : id.raw < 0
  · simp [h, Int.not_le.mpr h]
  · simp [h, Int.not_lt.mp h]

end Id

/-- Cell ids are shown like any id. -/
def CellId.text (id : CellId) : String := id.toId.text

/-- Wire ids are shown like any id. -/
def WireId.text (id : WireId) : String := id.toId.text

end PulseCircuit
