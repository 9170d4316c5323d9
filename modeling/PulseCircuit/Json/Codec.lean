import PulseCircuit.IntRange
import PulseCircuit.Json.Source
import PulseCircuit.Json.Value

/-!
# Codecs

How values of a type are written to JSON and read from it. Readers go through a source in the order
of the text and stop at the first thing that is wrong. A record is read from an object, whose
members may come in any order, or from an array of its fields. A union is told apart by a tag: it is
taken in as a whole before it is read, and inside it reading is a little more liberal.

Codecs are put together from a few parts: numbers, `choice` between names, `list`, `record` and
`union`.
-/

namespace PulseCircuit.Json

/-- Why a source was not accepted. Only what concerns the meaning of a number is told apart. -/
inductive DecodeError where
  | malformed
  | notACell (raw : Int)
  | notAWire (raw : Int)
  | badTiming (raw : Int)
deriving DecidableEq, Repr

def DecodeError.message? : DecodeError → Option String
  | .malformed => none
  | .notACell raw => some (toString raw ++ " is not a cell id")
  | .notAWire raw => some (toString raw ++ " is not a wire id")
  | .badTiming raw => some ("timing must be -1, 0 or 1, got " ++ toString raw)

/-- How a source is read. -/
inductive Mode where
  /-- Straight from the text, inside so many containers. -/
  | direct (depth : Nat)
  /-- Out of a union that was taken in before. -/
  | buffered
deriving DecidableEq, Repr

namespace Mode

/-- Inside one more container. -/
def deeper : Mode → Mode
  | .direct depth => .direct (depth + 1)
  | .buffered => .buffered

/-- How many containers may lie inside each other in one text. -/
def maxDepth : Nat := 127

/-- A union can be taken in: all of it is JSON and can be used. -/
def canBuffer (source : Source) : Mode → Bool
  | .direct depth => source.isWhole && source.isUsable (maxDepth - depth)
  | .buffered => true

end Mode

abbrev Decoder (α : Type) := Mode → Source → Except DecodeError α

structure Codec (α : Type) where
  encode : α → Value
  decode : Decoder α

namespace Codec

/-! ## Parts -/

def decodeInt (range : IntRange) : Decoder Int
  | _, .number numeral =>
    match numeral.int?.bind range.accept? with
    | some n => .ok n
    | none => .error .malformed
  | _, _ => .error .malformed

/-- Integers of 32 bits. -/
def int32 : Codec Int where
  encode := .int
  decode := decodeInt .bits32

/-- Integers of a range that stand for a value. The error says why one does not. -/
def ofInt {α : Type} (range : IntRange) (toInt : α → Int) (ofInt? : Int → Option α)
    (refusal : Int → DecodeError) : Codec α where
  encode a := .int (toInt a)
  decode mode source := do
    let raw ← decodeInt range mode source
    match ofInt? raw with
    | some a => .ok a
    | none => .error (refusal raw)

def bool : Codec Bool where
  encode := .bool
  decode
    | _, .bool value => .ok value
    | _, _ => .error .malformed

def real : Codec Float where
  encode := .real
  decode
    | _, .number numeral =>
      match numeral.float? with
      | some x => .ok x
      | none => .error .malformed
    | _, _ => .error .malformed

/-- A value or `null`. -/
def optional {α : Type} (codec : Codec α) : Codec (Option α) where
  encode
    | some a => codec.encode a
    | none => .null
  decode
    | _, .null => .ok none
    | mode, source => (codec.decode mode source).map some

def list {α : Type} (codec : Codec α) : Codec (List α) where
  encode as := .array (as.map codec.encode)
  decode
    | mode, .array elements => elements.mapM (codec.decode mode.deeper)
    | _, _ => .error .malformed

/-- A string that has to be a name out of a list. -/
def decodeName {α : Type} (names : List (String × α)) (text : Quoted) : Except DecodeError α :=
  match text.text?.bind fun name => List.lookup name names with
  | some a => .ok a
  | none => .error .malformed

/-- What may stand behind a name that is written as the only member of an object. -/
def isNothing : Mode → Source → Bool
  | _, .null => true
  | .buffered, .object [] => true
  | _, _ => false

/-- One of finitely many names. -/
def choice {α : Type} (all : List α) (name : α → String) : Codec α where
  encode a := .string (name a)
  decode mode source :=
    let names := all.map fun a => (name a, a)
    match source with
    | .string text => decodeName names text
    | .object [(text, value)] => do
      let a ← decodeName names text
      if isNothing mode.deeper value then .ok a else .error .malformed
    | _ => .error .malformed

end Codec

/-! ## Records -/

/-- A field of a record, with what it is when it is not given. -/
structure Field (α : Type) where
  name : String
  /-- What is written, if anything is. -/
  encode : α → Option Value
  decode : Decoder α
  /-- The value when an object does not have the field. -/
  missing : Option α
  /-- The value when an array ends before the field. -/
  cutOff : Option α

namespace Field

variable {α : Type}

/-- A field that has to be given. -/
def required (name : String) (codec : Codec α) : Field α where
  name := name
  encode a := some (codec.encode a)
  decode := codec.decode
  missing := none
  cutOff := none

/-- A field that is `null` when it has no value. An object may leave it out. -/
def nullable (name : String) (codec : Codec α) : Field (Option α) where
  name := name
  encode a := some (codec.optional.encode a)
  decode := codec.optional.decode
  missing := some none
  cutOff := none

/-- A field that is left out when it has no value. -/
def optional (name : String) (codec : Codec α) : Field (Option α) where
  name := name
  encode a := a.map codec.encode
  decode := codec.optional.decode
  missing := some none
  cutOff := some none

/-- A field that is left out when it has its usual value. -/
def usually [DecidableEq α] (name : String) (usual : α) (codec : Codec α) : Field α where
  name := name
  encode a := if a = usual then none else some (codec.encode a)
  decode := codec.decode
  missing := some usual
  cutOff := some usual

end Field

/-- Fields of the given types. -/
def Fields : List Type → Type
  | [] => Unit
  | α :: types => Field α × Fields types

/-- Values for fields of the given types. -/
def Values : List Type → Type
  | [] => Unit
  | α :: types => α × Values types

/-- The values of the fields met so far. -/
def Draft : List Type → Type
  | [] => Unit
  | α :: types => Option α × Draft types

def Draft.blank : (types : List Type) → Draft types
  | [] => ()
  | _ :: types => (none, blank types)

namespace Fields

/-- The members written for the values. -/
def encode : {types : List Type} → Fields types → Values types → List (String × Value)
  | [], (), () => []
  | _ :: _, (field, fields), (value, values) =>
    ((field.encode value).toList.map (field.name, ·)) ++ encode fields values

/-- Reads the value of the field with a name, if there is such a field. A field is given once. -/
def readField : {types : List Type} → Fields types → Mode → String → Source → Draft types →
    Option (Except DecodeError (Draft types))
  | [], (), _, _, _, () => none
  | _ :: _, (field, fields), mode, key, source, (slot, draft) =>
    if key = field.name then
      some <|
        match slot with
        | some _ => .error .malformed
        | none => (field.decode mode source).map fun value => (some value, draft)
    else (readField fields mode key source draft).map (·.map fun draft => (slot, draft))

/-- Reads members in order. Those that are no fields are passed over. -/
def readObject {types : List Type} (fields : Fields types) (mode : Mode) :
    List (Quoted × Source) → Draft types → Except DecodeError (Draft types)
  | [], draft => .ok draft
  | (key, source) :: members, draft =>
    match key.text? with
    | none => .error .malformed
    | some key =>
      match fields.readField mode key source draft with
      | some result => do fields.readObject mode members (← result)
      | none => if source.isWhole then fields.readObject mode members draft else .error .malformed

/-- The values once all members have been read. -/
def finish : {types : List Type} → Fields types → Draft types → Except DecodeError (Values types)
  | [], (), () => .ok ()
  | _ :: _, (field, fields), (slot, draft) =>
    match slot <|> field.missing with
    | some value => (finish fields draft).map fun values => (value, values)
    | none => .error .malformed

/-- Reads the fields one after the other from the elements of an array. -/
def readArray : {types : List Type} → Fields types → Mode → List Source →
    Except DecodeError (Values types)
  | [], (), _, [] => .ok ()
  | [], (), _, _ :: _ => .error .malformed
  | _ :: _, (field, fields), mode, [] =>
    match field.cutOff with
    | some value => (readArray fields mode []).map fun values => (value, values)
    | none => .error .malformed
  | _ :: _, (field, fields), mode, source :: sources => do
    let value ← field.decode mode source
    let values ← readArray fields mode sources
    .ok (value, values)

def decode {types : List Type} (fields : Fields types) : Decoder (Values types)
  | mode, .object members => do
    fields.finish (← fields.readObject mode.deeper members (.blank types))
  | mode, .array elements => fields.readArray mode.deeper elements
  | _, _ => .error .malformed

end Fields

/-- A type whose values are made of fields. -/
structure Record (α : Type) where
  types : List Type
  fields : Fields types
  make : Values types → α
  take : α → Values types

def Record.codec {α : Type} (record : Record α) : Codec α where
  encode a := .object (record.fields.encode (record.take a))
  decode mode source := (record.fields.decode mode source).map record.make

/-! ## Unions -/

/-- One case of a union, and the fields it has besides the tag. -/
structure Variant (α : Type) where
  name : String
  types : List Type
  fields : Fields types
  make : Values types → α
  /-- The values of the fields, if a value of the union is of this case. -/
  take : α → Option (Values types)

namespace Variant

variable {α : Type}

/-- A case without fields. -/
def plain (name : String) (value : α) (is : α → Bool) : Variant α where
  name := name
  types := []
  fields := ()
  make _ := value
  take a := if is a then some () else none

/-- A case that is another type in itself. -/
def ofRecord {β : Type} (name : String) (record : Record β) (make : β → α)
    (take : α → Option β) : Variant α where
  name := name
  types := record.types
  fields := record.fields
  make values := make (record.make values)
  take a := (take a).map record.take

def write? (variant : Variant α) (a : α) : Option (String × List (String × Value)) :=
  (variant.take a).map fun values => (variant.name, variant.fields.encode values)

/-- The case a tag names. Inside a union taken in before, a tag may be the number of the case. -/
def ofTag? (variants : List (Variant α)) : Mode → Source → Option (Variant α)
  | _, .string text => text.text?.bind fun name => variants.find? fun variant => variant.name = name
  | .buffered, .number numeral =>
    match numeral.int? with
    | some (.ofNat index) => variants[index]?
    | _ => none
  | _, _ => none

/-- Reads the rest of a union, tag taken out, as the case the tag names. -/
def read (variants : List (Variant α)) (mode : Mode) (tag rest : Source) : Except DecodeError α :=
  match ofTag? variants mode tag with
  | some variant => (variant.fields.decode .buffered rest).map variant.make
  | none => .error .malformed

/-- A union of cases. In an object the tag is a member, in an array the first element. -/
def codec (tag : String) (variants : List (Variant α)) : Codec α where
  encode a :=
    match variants.findSome? (·.write? a) with
    | some (name, members) => .object ((tag, .string name) :: members)
    | none => .null
  decode mode source :=
    if mode.canBuffer source then
      match source with
      | .object members =>
        match members.partition fun member => member.1.text? = some tag with
        | ([(_, value)], rest) => read variants mode value (.object rest)
        | _ => .error .malformed
      | .array (value :: rest) => read variants mode value (.array rest)
      | _ => .error .malformed
    else .error .malformed

end Variant

/-- Reads a whole text. -/
def Codec.read {α : Type} (codec : Codec α) (text : String) : Except DecodeError α := do
  let document := Document.read text.toList
  let value ← codec.decode (.direct 0) document.value
  if document.ends then .ok value else .error .malformed

/-- The text of a value. -/
def Codec.text {α : Type} (codec : Codec α) (a : α) : String := (codec.encode a).text

end PulseCircuit.Json
