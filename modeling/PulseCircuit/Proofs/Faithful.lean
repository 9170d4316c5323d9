import PulseCircuit.Proofs.JsonText

/-!
# Faithful codecs

A codec is faithful about a value if decoding what the value is encoded as gives it back, wherever there is
room for it. Each part that codecs are put together from keeps this: numbers, names and lists, and then fields,
which may leave out what they stand for when they are missing, records and unions of them.

* `Codec.Faithful.read_text`: what is faithful is read back from its text;
* `Fields.readObject_encode`: what is written for fields of different names is read back, by recursion along the
  fields;
* `Record.faithful`, `Variant.faithful`: records and unions.
-/

namespace PulseCircuit.Json

open Value

/-- There is room for so many more containers inside each other. -/
def Mode.HasRoom (levels : Nat) : Mode → Prop
  | .direct depth => depth + levels ≤ maxDepth
  | .buffered => True

theorem Mode.HasRoom.deeper {levels : Nat} {mode : Mode} (h : mode.HasRoom (levels + 1)) :
    mode.deeper.HasRoom levels := by
  cases mode with
  | direct depth =>
    simp only [HasRoom, Mode.deeper] at h ⊢
    omega
  | buffered => trivial

/-- Decoding what a value is encoded as gives the value back. Its encoding can be read from a text, has no
more than so many containers inside each other, and is not `null`. -/
structure Codec.Faithful {α : Type} (codec : Codec α) (levels : Nat) (a : α) : Prop where
  plain : (codec.encode a).Plain levels
  present : codec.encode a ≠ .null
  decode : ∀ mode : Mode, mode.HasRoom levels → codec.decode mode (codec.encode a).source = .ok a

/-- What is faithful is read back from its text. -/
theorem Codec.Faithful.read_text {α : Type} {codec : Codec α} {a : α}
    (h : codec.Faithful Mode.maxDepth a) : codec.read (codec.text a) = .ok a := by
  have hroom : Mode.HasRoom Mode.maxDepth (.direct 0) := by
    simp only [Mode.HasRoom]
    omega
  unfold Codec.read Codec.text
  rw [h.plain.read_text]
  dsimp only
  rw [h.decode _ hroom]
  rfl

section Parts

variable {α : Type} {levels : Nat}

theorem decodeInt_ofInt {range : IntRange} {n : Int} (h : range.contains n = true) (mode : Mode) :
    Codec.decodeInt range mode (.number (.ofInt n)) = .ok n := by
  have haccept : range.accept? n = some n := if_pos h
  simp [Codec.decodeInt, Numeral.int?_ofInt, haccept]

theorem natAbs_le_of_bits32 {n : Int} (h : IntRange.bits32.contains n = true) :
    n.natAbs ≤ Numeral.maxSignificand := by
  have hrange : IntRange.bits32.low ≤ n ∧ n ≤ IntRange.bits32.high := of_decide_eq_true h
  simp only [IntRange.bits32] at hrange
  simp only [Numeral.maxSignificand]
  omega

theorem Codec.int32_faithful {n : Int} (h : IntRange.bits32.contains n = true) :
    Codec.int32.Faithful levels n where
  plain := .int (natAbs_le_of_bits32 h)
  present := nofun
  decode mode _ := decodeInt_ofInt h mode

theorem Codec.ofInt_faithful {range : IntRange} {toInt : α → Int} {ofInt? : Int → Option α}
    {refusal : Int → DecodeError} {a : α} (hrange : range.contains (toInt a) = true)
    (hbits : IntRange.bits32.contains (toInt a) = true) (hof : ofInt? (toInt a) = some a) :
    (Codec.ofInt range toInt ofInt? refusal).Faithful levels a where
  plain := .int (natAbs_le_of_bits32 hbits)
  present := nofun
  decode mode _ := by
    have hraw := decodeInt_ofInt hrange mode
    simp only [Codec.ofInt, source, hraw, bind, Except.bind, hof]

theorem Codec.bool_faithful (b : Bool) : Codec.bool.Faithful levels b where
  plain := .bool b
  present := nofun
  decode _ _ := rfl

theorem Codec.real_faithful {x : Float} (h : ReadsBack x) : Codec.real.Faithful levels x where
  plain := .real h
  present := nofun
  decode mode _ := by
    simp only [Codec.real, source, h.numeral.2]

theorem Codec.choice_faithful {all : List α} {name : α → String} {a : α}
    (h : List.lookup (name a) (all.map fun a => (name a, a)) = some a) :
    (Codec.choice all name).Faithful levels a where
  plain := .string _
  present := nofun
  decode mode _ := by
    show Codec.decodeName _ (.ofString (name a)) = .ok a
    simp [Codec.decodeName, Quoted.text?_ofString, h]

theorem mapM_of_forall {β ε : Type} {f : β → Except ε α} {g : α → β} {as : List α}
    (h : ∀ a ∈ as, f (g a) = .ok a) : (as.map g).mapM f = .ok as := by
  induction as with
  | nil => rfl
  | cons a as ih =>
    rw [List.map_cons, List.mapM_cons, h a List.mem_cons_self,
      ih fun b hb => h b (List.mem_cons_of_mem _ hb)]
    rfl

theorem Codec.list_faithful {codec : Codec α} {as : List α} (h : ∀ a ∈ as, codec.Faithful levels a) :
    (Codec.list codec).Faithful (levels + 1) as where
  plain := by
    apply Plain.array
    intro value hvalue
    obtain ⟨a, ha, rfl⟩ := List.mem_map.mp hvalue
    exact (h a ha).plain
  present := nofun
  decode mode hmode := by
    show (elementSources (as.map codec.encode)).mapM (codec.decode mode.deeper) = .ok as
    rw [elementSources_eq, List.map_map]
    exact mapM_of_forall fun a ha => (h a ha).decode _ hmode.deeper

theorem Codec.decode_optional {codec : Codec α} {source : Source} (h : source ≠ .null) (mode : Mode) :
    codec.optional.decode mode source = (codec.decode mode source).map some := by
  cases source with
  | null => exact absurd rfl h
  | _ => rfl

end Parts

/-! ## Fields -/

/-- Whatever is written for the field is decoded to its value, and a value for which nothing is written is what
a missing field stands for. -/
structure Field.Faithful {α : Type} (field : Field α) (levels : Nat) (a : α) : Prop where
  plain : ∀ value, field.encode a = some value → value.Plain levels
  decode : ∀ value, field.encode a = some value → ∀ mode : Mode, mode.HasRoom levels →
    field.decode mode value.source = .ok a
  missing : field.encode a = none → field.missing = some a

namespace Field.Faithful

variable {α : Type} {name : String} {codec : Codec α} {levels : Nat}

theorem required {a : α} (h : codec.Faithful levels a) : (Field.required name codec).Faithful levels a where
  plain := by
    rintro value ⟨⟩
    exact h.plain
  decode := by
    rintro value ⟨⟩
    exact h.decode
  missing := nofun

/-- An optional value is faithful if there is none, or if it is. -/
theorem optional_decode {a : Option α} (h : ∀ b ∈ a, codec.Faithful levels b) {mode : Mode}
    (hmode : mode.HasRoom levels) : codec.optional.decode mode (codec.optional.encode a).source = .ok a := by
  cases a with
  | none => rfl
  | some b =>
    have hb := h b rfl
    show codec.optional.decode mode (codec.encode b).source = _
    rw [Codec.decode_optional (Value.source_ne_null hb.present), hb.decode mode hmode]
    rfl

theorem nullable {a : Option α} (h : ∀ b ∈ a, codec.Faithful levels b) :
    (Field.nullable name codec).Faithful levels a where
  plain := by
    rintro value ⟨⟩
    cases a with
    | none => exact .null
    | some b => exact (h b rfl).plain
  decode := by
    rintro value ⟨⟩ mode hmode
    exact optional_decode h hmode
  missing := nofun

theorem optional {a : Option α} (h : ∀ b ∈ a, codec.Faithful levels b) :
    (Field.optional name codec).Faithful levels a where
  plain := by
    intro value hvalue
    cases a with
    | none => cases hvalue
    | some b =>
      cases hvalue
      exact (h b rfl).plain
  decode := by
    intro value hvalue mode hmode
    cases a with
    | none => cases hvalue
    | some b =>
      cases hvalue
      exact optional_decode h hmode
  missing hnone := by
    cases a with
    | none => rfl
    | some b => cases hnone

theorem usually [DecidableEq α] {usual a : α} (h : codec.Faithful levels a) :
    (Field.usually name usual codec).Faithful levels a where
  plain := by
    intro value hvalue
    simp only [Field.usually] at hvalue
    split at hvalue <;> cases hvalue
    exact h.plain
  decode := by
    intro value hvalue
    simp only [Field.usually] at hvalue
    split at hvalue <;> cases hvalue
    exact h.decode
  missing hnone := by
    simp only [Field.usually] at hnone ⊢
    split at hnone
    next heq => rw [heq]
    · cases hnone

end Field.Faithful

namespace Fields

/-- Every field is faithful about its value. -/
def Faithful : {types : List Type} → Fields types → Nat → Values types → Prop
  | [], (), _, () => True
  | _ :: _, (field, fields), levels, (value, values) =>
    field.Faithful levels value ∧ Faithful fields levels values

def names : {types : List Type} → Fields types → List String
  | [], () => []
  | _ :: _, (field, fields) => field.name :: names fields

theorem plain_encode : {types : List Type} → (fields : Fields types) → {levels : Nat} →
    {values : Values types} → Faithful fields levels values →
    ∀ member ∈ fields.encode values, member.2.Plain levels
  | [], (), _, (), _ => nofun
  | _ :: _, (field, fields), levels, (value, values), ⟨hfield, hfields⟩ => by
    intro member hmember
    rcases List.mem_append.mp hmember with hmember | hmember
    · obtain ⟨written, hwritten, rfl⟩ := List.mem_map.mp hmember
      exact hfield.plain written (by simpa using hwritten)
    · exact plain_encode fields hfields member hmember

theorem fst_mem_names : {types : List Type} → (fields : Fields types) → {values : Values types} →
    ∀ member ∈ fields.encode values, member.1 ∈ fields.names
  | [], (), () => nofun
  | _ :: _, (field, fields), (value, values) => by
    intro member hmember
    rcases List.mem_append.mp hmember with hmember | hmember
    · obtain ⟨written, -, rfl⟩ := List.mem_map.mp hmember
      exact List.mem_cons_self
    · exact List.mem_cons_of_mem _ (fst_mem_names fields member hmember)

theorem readObject_ofString {types : List Type} (fields : Fields types) (mode : Mode) (key : String)
    (source : Source) (members : List (Quoted × Source)) (draft : Draft types) :
    fields.readObject mode ((.ofString key, source) :: members) draft =
      match fields.readField mode key source draft with
      | some result => result.bind (fields.readObject mode members)
      | none => if source.isWhole then fields.readObject mode members draft else .error .malformed := by
  rw [readObject, Quoted.text?_ofString]
  rfl

/-- Members of other names leave the first field alone. -/
theorem readObject_cons {α : Type} {types : List Type} (field : Field α) (fields : Fields types) (mode : Mode)
    {members : List (String × Value)} (h : ∀ member ∈ members, member.1 ≠ field.name) (slot : Option α)
    (draft : Draft types) :
    @readObject (α :: types) (field, fields) mode (memberSources members) (slot, draft) =
      (fields.readObject mode (memberSources members) draft).map fun draft => (slot, draft) := by
  induction members generalizing draft with
  | nil => rfl
  | cons member members ih =>
    rcases member with ⟨key, value⟩
    have hkey : key ≠ field.name := h (key, value) List.mem_cons_self
    have hmembers : ∀ member ∈ members, member.1 ≠ field.name :=
      fun member hmem => h member (List.mem_cons_of_mem _ hmem)
    have hfield : @readField (α :: types) (field, fields) mode key value.source (slot, draft) =
        (fields.readField mode key value.source draft).map (·.map fun draft => (slot, draft)) :=
      if_neg hkey
    rw [memberSources, readObject_ofString]
    apply (@readObject_ofString (α :: types) (field, fields) mode key value.source (memberSources members)
      (slot, draft)).trans
    rw [hfield]
    cases hread : fields.readField mode key value.source draft with
    | none =>
      simp only [Option.map_none]
      split
      · exact ih hmembers draft
      · rfl
    | some result =>
      cases result with
      | error e => rfl
      | ok next => exact ih hmembers next

/-- What is written for the values is read back to them. -/
theorem readObject_encode : {types : List Type} → (fields : Fields types) → {levels : Nat} →
    {values : Values types} → Faithful fields levels values → fields.names.Nodup →
    ∀ mode : Mode, mode.HasRoom levels →
      ∃ draft, fields.readObject mode (memberSources (fields.encode values)) (.blank types) = .ok draft ∧
        fields.finish draft = .ok values
  | [], (), _, (), _, _, _, _ => ⟨(), rfl, rfl⟩
  | α :: types, (field, fields), levels, (value, values), ⟨hfield, hfields⟩, hnodup, mode, hmode => by
    rw [names, List.nodup_cons] at hnodup
    obtain ⟨draft, hread, hfinish⟩ := readObject_encode fields hfields hnodup.2 mode hmode
    have hother : ∀ member ∈ fields.encode values, member.1 ≠ field.name := by
      intro member hmember heq
      exact hnodup.1 (heq ▸ fst_mem_names fields member hmember)
    have hskip := fun slot => readObject_cons field fields mode hother slot (.blank types)
    rw [hread] at hskip
    cases hencode : field.encode value with
    | none =>
      refine ⟨(none, draft), ?_, ?_⟩
      · simp only [encode, hencode]
        exact hskip none
      · simp only [finish, hfield.missing hencode, hfinish]
        rfl
    | some written =>
      refine ⟨(some value, draft), ?_, ?_⟩
      · have hfield : @readField (α :: types) (field, fields) mode field.name written.source
            (.blank (α :: types)) = some (.ok (some value, .blank types)) := by
          have hdecode := hfield.decode written hencode mode hmode
          simp [readField, Draft.blank, hdecode]
          rfl
        simp only [encode, hencode]
        apply (@readObject_ofString (α :: types) (field, fields) mode field.name written.source
          (memberSources (fields.encode values)) _).trans
        rw [hfield]
        exact hskip (some value)
      · simp only [finish, hfinish]
        rfl

end Fields

/-- A record is faithful if its fields are, and have different names. -/
theorem Record.faithful {α : Type} {record : Record α} {levels : Nat} {a : α}
    (hnodup : record.fields.names.Nodup) (hmake : record.make (record.take a) = a)
    (h : record.fields.Faithful levels (record.take a)) : record.codec.Faithful (levels + 1) a where
  plain := .object (Fields.plain_encode _ h)
  present := nofun
  decode mode hmode := by
    obtain ⟨draft, hread, hfinish⟩ := record.fields.readObject_encode h hnodup mode.deeper hmode.deeper
    show ((do record.fields.finish (← record.fields.readObject mode.deeper
      (memberSources (record.fields.encode (record.take a))) (.blank record.types))).map record.make) = .ok a
    rw [hread]
    show (record.fields.finish draft).map record.make = .ok a
    rw [hfinish]
    show Except.ok (record.make (record.take a)) = .ok a
    rw [hmake]

namespace Variant

variable {α : Type} {tag : String} {variants : List (Variant α)} {levels : Nat} {a : α}

/-- The tag is the only member with its name. -/
theorem partition_tag {members : List (String × Value)} (htag : ∀ member ∈ members, member.1 ≠ tag)
    (name : String) :
    (memberSources ((tag, .string name) :: members)).partition (fun member => member.1.text? = some tag) =
      ([(.ofString tag, .string (.ofString name))], memberSources members) := by
  have hother : ∀ member ∈ memberSources members, member.1.text? ≠ some tag := by
    rw [memberSources_eq]
    intro inner hinner
    obtain ⟨member, hmember, rfl⟩ := List.mem_map.mp hinner
    rw [Quoted.text?_ofString]
    simpa using htag member hmember
  have htext : (Quoted.ofString tag).text? = some tag := Quoted.text?_ofString tag
  rw [List.partition_eq_filter_filter, memberSources, source]
  rw [List.filter_cons_of_pos (by simpa using htext), List.filter_cons_of_neg (by simpa using htext)]
  rw [List.filter_eq_nil_iff.mpr (by simpa using hother), List.filter_eq_self.mpr (by simpa using hother)]

/-- A value of a union is faithful if the fields of its case are, and neither they nor another case can be
mistaken for it. -/
theorem faithful (variant : Variant α) (values : Values variant.types)
    (hwrite : variants.findSome? (·.write? a) = some (variant.name, variant.fields.encode values))
    (hfind : variants.find? (fun other => other.name = variant.name) = some variant)
    (hmake : variant.make values = a) (htag : (tag :: variant.fields.names).Nodup)
    (h : variant.fields.Faithful levels values) : (codec tag variants).Faithful (levels + 1) a := by
  have hencode : (codec tag variants).encode a =
      .object ((tag, .string variant.name) :: variant.fields.encode values) := by
    simp only [codec, hwrite]
  have hplain : ((codec tag variants).encode a).Plain (levels + 1) := by
    rw [hencode]
    apply Plain.object
    intro member hmember
    rcases List.mem_cons.mp hmember with rfl | hmember
    · exact .string _
    · exact variant.fields.plain_encode h member hmember
  constructor
  · exact hplain
  · rw [hencode]
    nofun
  · intro mode hmode
    have hbuffer : mode.canBuffer ((codec tag variants).encode a).source = true := by
      cases mode with
      | direct depth =>
        simp only [Mode.HasRoom] at hmode
        simp only [Mode.canBuffer, hplain.isWhole, Bool.true_and]
        exact hplain.isUsable _ (by omega)
      | buffered => rfl
    rw [List.nodup_cons] at htag
    have hother : ∀ member ∈ variant.fields.encode values, member.1 ≠ tag := by
      intro member hmember heq
      exact htag.1 (heq ▸ variant.fields.fst_mem_names member hmember)
    obtain ⟨draft, hread, hfinish⟩ :=
      variant.fields.readObject_encode h htag.2 .buffered trivial
    have htagged : ofTag? variants mode (.string (.ofString variant.name)) = some variant := by
      simp only [ofTag?, Quoted.text?_ofString, Option.bind_some]
      exact hfind
    have hfields : variant.fields.decode .buffered (.object (memberSources (variant.fields.encode values))) =
        .ok values := by
      show (do variant.fields.finish (← variant.fields.readObject .buffered
        (memberSources (variant.fields.encode values)) (.blank variant.types))) = .ok values
      rw [hread]
      exact hfinish
    rw [hencode] at hbuffer ⊢
    unfold codec
    dsimp only
    rw [if_pos hbuffer]
    simp only [source]
    rw [partition_tag hother]
    dsimp only
    unfold read
    rw [htagged]
    show (variant.fields.decode .buffered (.object _)).map variant.make = .ok a
    rw [hfields]
    show Except.ok (variant.make values) = .ok a
    rw [hmake]

end Variant

end PulseCircuit.Json
