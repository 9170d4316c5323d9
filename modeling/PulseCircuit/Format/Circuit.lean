import PulseCircuit.Circuit.Basic
import PulseCircuit.Format.Element

/-!
# Circuits in JSON

A table is an object with ids for keys, in the order of its rows. A text may repeat a key: the later
row then takes the place of the earlier one.
-/

namespace PulseCircuit

open Json

def Row.codec : Codec Row :=
  Variant.codec "entity"
    [.ofRecord "cell" Cell.record .cell fun
        | .cell c => some c
        | .wire _ => none,
      .ofRecord "wire" Wire.record .wire fun
        | .wire w => some w
        | .cell _ => none]

def IdPool.record : Record IdPool where
  types := [Int, Int, List CellId, List WireId, List Id]
  fields :=
    (.required "next_cell" .int32,
      .required "next_wire" .int32,
      .required "free_cells" (.list CellId.codec),
      .required "free_wires" (.list WireId.codec),
      .required "held" (.list Id.codec),
      ())
  make := fun (nextCell, nextWire, freeCells, freeWires, held, ()) =>
    ⟨nextCell, nextWire, freeCells, freeWires, held⟩
  take pool := (pool.nextCell, pool.nextWire, pool.freeCells, pool.freeWires, pool.held, ())

def IdPool.codec : Codec IdPool := IdPool.record.codec

namespace Table

/-- A key of a table of rows: an integer, and nothing else, between the quotation marks. -/
def readKey (key : Quoted) : Except DecodeError Id :=
  match readNumeral key.raw with
  | some (numeral, []) => Id.codec.decode .buffered (.number numeral)
  | _ => .error .malformed

def readRows (mode : Mode) : List (Quoted × Source) → Except DecodeError (List (Id × Row))
  | [] => .ok []
  | (key, source) :: members => do
    let id ← readKey key
    let row ← Row.codec.decode mode source
    let rows ← readRows mode members
    .ok ((id, row) :: rows)

def codec : Codec (Table Id Row) where
  encode t := .object (t.rows.map fun (id, row) => (toString id.raw, Row.codec.encode row))
  decode
    | mode, .object members => (readRows mode.deeper members).map ofList
    | _, _ => .error .malformed

end Table

def Circuit.record : Record Circuit where
  types := [Table Id Row, Table Id Row, IdPool]
  fields :=
    (.required "entities" Table.codec,
      .required "archived" Table.codec,
      .required "ids" IdPool.codec,
      ())
  make := fun (live, archive, ids, ()) => ⟨live, archive, ids⟩
  take c := (c.live, c.archive, c.ids, ())

def Circuit.codec : Codec Circuit := Circuit.record.codec

/-- The text of a circuit. -/
def Circuit.toJson (c : Circuit) : String := Circuit.codec.text c

/-- The circuit of a text. It need not be consistent. -/
def Circuit.ofJson (text : String) : Except DecodeError Circuit := Circuit.codec.read text

end PulseCircuit
