import PulseCircuit.Json.Codec
import PulseCircuit.Proofs.Collecting

/-!
# What can be decoded

A codec gives a value if some source is decoded to it, in whatever way it is read. A value that is given has parts
that are given: the elements of a list, the fields of a record, of which each was decoded or is what it stands for
when it is missing, and the fields of one case of a union. So a condition that the smallest decoders check holds
all through a value that was decoded.

* `Codec.gives_ofInt`: integers are in their range and stand for something;
* `Fields.give_decode`: the fields, by recursion along them, whether they come as an object or as an array;
* `Record.gives`, `Variant.gives`: records and unions.
-/

namespace PulseCircuit.Json

/-- Some source is decoded to the value. -/
def Codec.Gives {α : Type} (codec : Codec α) (a : α) : Prop :=
  ∃ mode source, codec.decode mode source = .ok a

section Parts

variable {α : Type}

theorem Codec.gives_of_read {codec : Codec α} {text : String} {a : α} (h : codec.read text = .ok a) :
    codec.Gives a := by
  obtain ⟨b, hdecode, hb⟩ := exists_of_bind h
  split at hb
  · cases hb
    exact ⟨_, _, hdecode⟩
  · cases hb

theorem Codec.contains_of_decodeInt {range : IntRange} {mode : Mode} {source : Source} {n : Int}
    (h : decodeInt range mode source = .ok n) : range.contains n = true := by
  unfold decodeInt at h
  split at h
  next numeral =>
    split at h
    next m haccept =>
      cases h
      obtain ⟨k, -, hk⟩ := Option.bind_eq_some_iff.mp haccept
      obtain ⟨rfl, hrange⟩ := IntRange.accept?_eq_some_iff.mp hk
      exact decide_eq_true hrange
    · cases h
  · cases h

theorem Codec.gives_int32 {n : Int} (h : Codec.int32.Gives n) : IntRange.bits32.contains n = true := by
  obtain ⟨mode, source, hdecode⟩ := h
  exact contains_of_decodeInt hdecode

theorem Codec.gives_ofInt {range : IntRange} {toInt : α → Int} {ofInt? : Int → Option α}
    {refusal : Int → DecodeError} {a : α} (h : (Codec.ofInt range toInt ofInt? refusal).Gives a) :
    ∃ raw, range.contains raw = true ∧ ofInt? raw = some a := by
  obtain ⟨mode, source, hdecode⟩ := h
  obtain ⟨raw, hraw, ha⟩ := exists_of_bind hdecode
  refine ⟨raw, contains_of_decodeInt hraw, ?_⟩
  split at ha
  next hof =>
    cases ha
    exact hof
  · cases ha

theorem Codec.gives_list {codec : Codec α} {as : List α} (h : (Codec.list codec).Gives as) :
    ∀ a ∈ as, codec.Gives a := by
  obtain ⟨mode, source, hdecode⟩ := h
  cases source with
  | array elements =>
    intro a ha
    obtain ⟨element, -, helement⟩ := (mapM_members hdecode).2 a ha
    exact ⟨mode.deeper, element, helement⟩
  | _ => cases hdecode

theorem Codec.gives_optional {codec : Codec α} {a : Option α} (h : codec.optional.Gives a) :
    ∀ b ∈ a, codec.Gives b := by
  obtain ⟨mode, source, hdecode⟩ := h
  rintro b rfl
  cases source with
  | null => cases hdecode
  | _ =>
    obtain ⟨a, ha, heq⟩ := exists_of_map hdecode
    cases heq
    exact ⟨mode, _, ha⟩

end Parts

/-! ## Fields -/

/-- Some source is decoded to the value, or it is what the field is when it is not given. -/
def Field.Gives {α : Type} (field : Field α) (a : α) : Prop :=
  (∃ mode source, field.decode mode source = .ok a) ∨ field.missing = some a ∨ field.cutOff = some a

namespace Field

variable {α : Type} {name : String} {codec : Codec α}

theorem gives_required {a : α} (h : (required name codec).Gives a) : codec.Gives a := by
  rcases h with h | h | h
  · exact h
  · cases h
  · cases h

theorem gives_nullable {a : Option α} (h : (nullable name codec).Gives a) : ∀ b ∈ a, codec.Gives b := by
  rcases h with h | h | h
  · exact Codec.gives_optional h
  · cases h
    nofun
  · cases h

theorem gives_optional {a : Option α} (h : (optional name codec).Gives a) : ∀ b ∈ a, codec.Gives b := by
  rcases h with h | h | h
  · exact Codec.gives_optional h
  · cases h
    nofun
  · cases h
    nofun

end Field

namespace Fields

/-- Each field can have its value. -/
def Give : {types : List Type} → Fields types → Values types → Prop
  | [], (), () => True
  | _ :: _, (field, fields), (value, values) => field.Gives value ∧ Give fields values

/-- Each field that was met can have the value it was met with. -/
def GiveSoFar : {types : List Type} → Fields types → Draft types → Prop
  | [], (), () => True
  | _ :: _, (field, fields), (slot, draft) => (∀ value ∈ slot, field.Gives value) ∧ GiveSoFar fields draft

theorem giveSoFar_blank : {types : List Type} → (fields : Fields types) → fields.GiveSoFar (.blank types)
  | [], () => trivial
  | _ :: _, (_, fields) => ⟨nofun, giveSoFar_blank fields⟩

theorem giveSoFar_readField : {types : List Type} → (fields : Fields types) → {mode : Mode} → {key : String} →
    {source : Source} → {draft next : Draft types} → fields.GiveSoFar draft →
    fields.readField mode key source draft = some (.ok next) → fields.GiveSoFar next
  | [], (), _, _, _, (), _, _, h => nomatch h
  | α :: types, (field, fields), mode, key, source, (slot, draft), next, ⟨hslot, hdraft⟩, h => by
    by_cases hkey : key = field.name
    · cases slot with
      | some value =>
        have hfield : @readField (α :: types) (field, fields) mode key source (some value, draft) =
            some (.error .malformed) :=
          if_pos hkey
        cases hfield.symm.trans h
      | none =>
        have hfield : @readField (α :: types) (field, fields) mode key source (none, draft) =
            some ((field.decode mode source).map fun value => (some value, draft)) :=
          if_pos hkey
        obtain ⟨value, hvalue, rfl⟩ := exists_of_map (Option.some.inj (hfield.symm.trans h))
        constructor
        · rintro a ⟨⟩
          exact .inl ⟨mode, source, hvalue⟩
        · exact hdraft
    · have hfields : @readField (α :: types) (field, fields) mode key source (slot, draft) =
          (fields.readField mode key source draft).map (·.map fun draft => (slot, draft)) :=
        if_neg hkey
      obtain ⟨result, hread, hresult⟩ := Option.map_eq_some_iff.mp (hfields.symm.trans h)
      obtain ⟨rest, rfl, rfl⟩ := exists_of_map hresult
      exact ⟨hslot, giveSoFar_readField fields hdraft hread⟩

theorem giveSoFar_readObject {types : List Type} (fields : Fields types) {mode : Mode}
    {members : List (Quoted × Source)} {draft next : Draft types} (hdraft : fields.GiveSoFar draft)
    (h : fields.readObject mode members draft = .ok next) : fields.GiveSoFar next := by
  induction members generalizing draft with
  | nil =>
    cases h
    exact hdraft
  | cons member members ih =>
    rcases member with ⟨key, source⟩
    rw [readObject] at h
    split at h
    · cases h
    · split at h
      next hread =>
        obtain ⟨between, rfl, h⟩ := exists_of_bind h
        exact ih (giveSoFar_readField fields hdraft hread) h
      · split at h
        · exact ih hdraft h
        · cases h

theorem give_finish : {types : List Type} → (fields : Fields types) → {draft : Draft types} →
    {values : Values types} → fields.GiveSoFar draft → fields.finish draft = .ok values → fields.Give values
  | [], (), (), (), _, _ => trivial
  | α :: types, (field, fields), (slot, draft), values, ⟨hslot, hdraft⟩, h => by
    cases hvalue : slot <|> field.missing with
    | none =>
      have hfinish : @finish (α :: types) (field, fields) (slot, draft) = .error .malformed := by
        simp only [finish, hvalue]
      cases hfinish.symm.trans h
    | some value =>
      have hfinish : @finish (α :: types) (field, fields) (slot, draft) =
          (fields.finish draft).map fun values => (value, values) := by
        simp only [finish, hvalue]
        rfl
      obtain ⟨rest, hrest, rfl⟩ := exists_of_map (hfinish.symm.trans h)
      have hgives : field.Gives value := by
        cases slot with
        | none => exact .inr (.inl hvalue)
        | some met =>
          cases hvalue
          exact hslot value rfl
      exact ⟨hgives, give_finish fields hdraft hrest⟩

theorem give_readArray : {types : List Type} → (fields : Fields types) → {mode : Mode} →
    {sources : List Source} → {values : Values types} → fields.readArray mode sources = .ok values →
    fields.Give values
  | [], (), _, _, (), _ => trivial
  | α :: types, (field, fields), mode, [], values, h => by
    cases hvalue : field.cutOff with
    | none =>
      have hread : @readArray (α :: types) (field, fields) mode [] = .error .malformed := by
        simp only [readArray, hvalue]
      cases hread.symm.trans h
    | some value =>
      have hread : @readArray (α :: types) (field, fields) mode [] =
          (fields.readArray mode []).map fun values => (value, values) := by
        simp only [readArray, hvalue]
        rfl
      obtain ⟨rest, hrest, rfl⟩ := exists_of_map (hread.symm.trans h)
      exact ⟨.inr (.inr hvalue), give_readArray fields hrest⟩
  | _ :: _, (field, fields), mode, source :: sources, values, h => by
    obtain ⟨value, hvalue, h⟩ := exists_of_bind h
    obtain ⟨rest, hrest, h⟩ := exists_of_bind h
    cases h
    exact ⟨.inl ⟨mode, source, hvalue⟩, give_readArray fields hrest⟩

theorem give_decode {types : List Type} (fields : Fields types) {mode : Mode} {source : Source}
    {values : Values types} (h : fields.decode mode source = .ok values) : fields.Give values := by
  cases source with
  | object members =>
    obtain ⟨draft, hread, h⟩ := exists_of_bind h
    exact give_finish fields (giveSoFar_readObject fields (giveSoFar_blank fields) hread) h
  | array elements => exact give_readArray fields h
  | _ => cases h

end Fields

/-! ## Records and unions -/

theorem Record.gives {α : Type} {record : Record α} {a : α} (h : record.codec.Gives a) :
    ∃ values, record.fields.Give values ∧ record.make values = a := by
  obtain ⟨mode, source, hdecode⟩ := h
  obtain ⟨values, hvalues, hmake⟩ := exists_of_map hdecode
  exact ⟨values, Fields.give_decode _ hvalues, hmake⟩

namespace Variant

variable {α : Type} {variants : List (Variant α)}

theorem mem_of_ofTag? {mode : Mode} {tag : Source} {variant : Variant α}
    (h : ofTag? variants mode tag = some variant) : variant ∈ variants := by
  unfold ofTag? at h
  split at h
  · obtain ⟨name, -, hfind⟩ := Option.bind_eq_some_iff.mp h
    exact List.mem_of_find?_eq_some hfind
  · split at h
    · exact List.mem_of_getElem? h
    · cases h
  · cases h

theorem gives_of_read {mode : Mode} {tag rest : Source} {a : α} (h : read variants mode tag rest = .ok a) :
    ∃ variant ∈ variants, ∃ values, variant.fields.Give values ∧ variant.make values = a := by
  unfold read at h
  split at h
  next variant htag =>
    obtain ⟨values, hvalues, hmake⟩ := exists_of_map h
    exact ⟨variant, mem_of_ofTag? htag, values, Fields.give_decode _ hvalues, hmake⟩
  · cases h

theorem gives {tag : String} {a : α} (h : (codec tag variants).Gives a) :
    ∃ variant ∈ variants, ∃ values, variant.fields.Give values ∧ variant.make values = a := by
  obtain ⟨mode, source, hdecode⟩ := h
  unfold codec at hdecode
  dsimp only at hdecode
  split at hdecode
  · split at hdecode
    · split at hdecode
      · exact gives_of_read hdecode
      · cases hdecode
    · exact gives_of_read hdecode
    · cases hdecode
  · cases hdecode

end Variant

end PulseCircuit.Json
