import PulseCircuit.Json.Codec
import PulseCircuit.Proofs.Numerals

/-!
# Texts of documents

The text of a document is read as the document, with nothing left over. What it is read as still shows what was
written (`Value.source`): strings with their escapes, numbers as numerals.

* `Quoted.text?_ofString`: escapes are resolved to the string they were made from;
* `ReadsBack`: the floating-point numbers that survive, which not all do;
* `Value.Plain`: a document whose numbers survive, and how many containers lie inside each other in it;
* `Value.Plain.isRead`: it is read whatever follows it, by recursion along the reader;
* `Value.Plain.isWhole`, `Value.Plain.isUsable`: it can be taken in before it is read.
-/

namespace PulseCircuit.Json

/-! ## Strings -/

namespace Quoted

/-- What a string is written as between the quotation marks. -/
def ofString (s : String) : Quoted := ⟨s.toList.flatMap escape⟩

/-- A character below the blank is escaped by its number. -/
theorem unit?_digits {n : Nat} (h : n < 0x20) :
    unit? '0' '0' (Hex.digit (n / 16)) (Hex.digit (n % 16)) = some n := by
  have hall : ∀ m < 0x20, unit? '0' '0' (Hex.digit (m / 16)) (Hex.digit (m % 16)) = some m := by
    decide
  exact hall n h

theorem unescape_escape (c : Char) (rest done : List Char) :
    unescape (escape c ++ rest) done = unescape rest (c :: done) := by
  unfold escape
  split
  · rfl
  · rfl
  · rfl
  · rfl
  · rfl
  · rfl
  · rfl
  next hquote hslash hb hf hn hr ht =>
    split
    next hlow =>
      have hunit := unit?_digits hlow
      simp only [List.cons_append, List.nil_append]
      rw [unescape, hunit]
      have hlow' : ¬ (0xDC00 ≤ c.toNat ∧ c.toNat < 0xE000) := by omega
      have hhigh : ¬ (0xD800 ≤ c.toNat ∧ c.toNat < 0xDC00) := by omega
      rw [Option.bind_eq_bind, Option.bind_some, if_neg hlow', if_neg hhigh, Char.ofNat_toNat]
    next hlow =>
      rw [List.singleton_append, unescape]
      · exact fun _ _ _ _ _ heq => (hslash heq).elim
      · exact fun _ _ heq => (hslash heq).elim

theorem unescape_flatMap (cs done : List Char) :
    unescape (cs.flatMap escape) done = some (done.reverse ++ cs) := by
  induction cs generalizing done with
  | nil => simp [unescape]
  | cons c cs ih =>
    rw [List.flatMap_cons, unescape_escape, ih]
    simp

theorem text?_ofString (s : String) : (ofString s).text? = some s := by
  simp [text?, ofString, unescape_flatMap]

end Quoted

theorem readQuoted_escape (c : Char) (rest done : List Char) :
    readQuoted (escape c ++ rest) done = readQuoted rest ((escape c).reverse ++ done) := by
  unfold escape
  split
  · rfl
  · rfl
  · rfl
  · rfl
  · rfl
  · rfl
  · rfl
  next hquote hslash hb hf hn hr ht =>
    split
    next hlow =>
      have hunit := Quoted.unit?_digits hlow
      simp [readQuoted, hunit]
    next hlow =>
      rw [List.singleton_append, readQuoted, if_neg hlow, List.reverse_singleton, List.singleton_append]
      · exact hquote
      · exact fun _ _ _ _ _ heq => (hslash heq).elim
      · exact fun _ _ heq => (hslash heq).elim

theorem readQuoted_flatMap (cs rest done : List Char) :
    readQuoted (cs.flatMap escape ++ '"' :: rest) done =
      some (⟨done.reverse ++ cs.flatMap escape⟩, rest) := by
  induction cs generalizing done with
  | nil => simp [readQuoted]
  | cons c cs ih =>
    rw [List.flatMap_cons, List.append_assoc, readQuoted_escape, ih]
    simp

/-- A string is read up to its closing quotation mark. -/
theorem readQuoted_writeString (s : String) (rest : List Char) :
    readQuoted (s.toList.flatMap escape ++ '"' :: rest) [] = some (.ofString s, rest) :=
  readQuoted_flatMap s.toList rest []

theorem escape_of_mem_writeInt {n : Int} {c : Char} (h : c ∈ writeInt n) : escape c = [c] := by
  have hplain : c = '-' ∨ c.isDigit = true := by
    unfold writeInt at h
    split at h
    · rcases List.mem_cons.mp h with rfl | h
      · exact .inl rfl
      · exact .inr (Decimal.isDigit_of_mem_digitsOf h)
    · exact .inr (Decimal.isDigit_of_mem_digitsOf h)
  rcases hplain with rfl | hdigit
  · rfl
  · have hlarge : ¬ c.toNat < 0x20 := by
      have hdigits : 48 ≤ c.toNat := by
        simp only [Char.isDigit, Bool.and_eq_true, decide_eq_true_eq] at hdigit
        exact UInt32.le_iff_toNat_le.mp hdigit.1
      omega
    unfold escape
    split
    · cases hdigit
    · cases hdigit
    · cases hdigit
    · cases hdigit
    · cases hdigit
    · cases hdigit
    · cases hdigit
    · exact if_neg hlarge

/-- The key of a row is an integer as it is written elsewhere. -/
theorem Quoted.raw_ofString_toString (n : Int) : (Quoted.ofString (toString n)).raw = writeInt n := by
  show (toString n).toList.flatMap escape = writeInt n
  rw [toList_toString]
  have hplain : ∀ cs : List Char, (∀ c ∈ cs, escape c = [c]) → cs.flatMap escape = cs := by
    intro cs hcs
    induction cs with
    | nil => rfl
    | cons c cs ih =>
      rw [List.flatMap_cons, hcs c List.mem_cons_self, ih fun d hd => hcs d (List.mem_cons_of_mem _ hd)]
      rfl
  exact hplain _ fun c hc => escape_of_mem_writeInt hc

/-! ## Floating-point numbers -/

/-- A number whose text is read as that number. What is not finite is written `null`, and of the finite numbers
some with long texts are read one step away. -/
def ReadsBack (x : Float) : Prop := Codec.real.read (Codec.real.text x) = .ok x

instance (x : Float) : Decidable (ReadsBack x) := inferInstanceAs (Decidable (_ = _))

example : ReadsBack 0.1 ∧ ¬ ReadsBack 31.245270191439438 := by decide +kernel

theorem skipBlanks_cons {c : Char} (h : isBlank c = false) (cs : List Char) :
    skipBlanks (c :: cs) = c :: cs := by
  simp [skipBlanks, h]

theorem skipBlanks_of_unbroken {cs : List Char} (h : Unbroken cs) : skipBlanks cs = cs := by
  cases cs with
  | nil => rfl
  | cons c cs => exact skipBlanks_cons (h c List.mem_cons_self) cs

/-- The numeral a floating-point number is written as. -/
def Numeral.ofReal (x : Float) : Numeral :=
  match readNumeral (writeReal x) with
  | some (numeral, _) => numeral
  | none => .ofInt 0

/-- A number that is read is a numeral with blanks around it. -/
theorem readNumeral_of_readValue {fuel : Nat} {cs : List Char} {numeral : Numeral}
    {left : Option (List Char)} (h : readValue fuel cs = (.number numeral, left)) :
    ∃ rest, left = some rest ∧ readNumeral (skipBlanks cs) = some (numeral, rest) := by
  cases fuel with
  | zero => cases h
  | succ fuel =>
    unfold readValue at h
    split at h
    · unfold readWord at h
      split at h <;> cases h
    · unfold readWord at h
      split at h <;> cases h
    · unfold readWord at h
      split at h <;> cases h
    · split at h <;> cases h
    · split at h <;> cases h
    · split at h <;> cases h
    · split at h
      next heq =>
        cases h
        exact ⟨_, rfl, heq⟩
      · cases h

theorem Codec.read_eq_ok {α : Type} {codec : Codec α} {text : String} {a : α}
    (h : codec.read text = .ok a) :
    codec.decode (.direct 0) (Document.read text.toList).value = .ok a ∧
      (Document.read text.toList).ends = true := by
  unfold Codec.read at h
  dsimp only at h
  cases hdecode : codec.decode (.direct 0) (Document.read text.toList).value with
  | error e =>
    rw [hdecode] at h
    cases h
  | ok b =>
    rw [hdecode] at h
    change (if (Document.read text.toList).ends = true then _ else _) = _ at h
    split at h
    next hends =>
      cases h
      exact ⟨rfl, hends⟩
    · cases h

theorem Codec.decode_real {mode : Mode} {source : Source} {x : Float}
    (h : Codec.real.decode mode source = .ok x) :
    ∃ numeral, source = .number numeral ∧ numeral.float? = some x := by
  unfold Codec.real at h
  dsimp only at h
  split at h
  next numeral =>
    split at h
    next hfloat =>
      cases h
      exact ⟨numeral, rfl, hfloat⟩
    · cases h
  · cases h

/-- The text is one numeral, with nothing around it. -/
theorem ReadsBack.numeral {x : Float} (h : ReadsBack x) :
    readNumeral (writeReal x) = some (.ofReal x, []) ∧ (Numeral.ofReal x).float? = some x := by
  have htext : (Codec.real.text x).toList = writeReal x := String.toList_ofList
  obtain ⟨hdecode, hends⟩ := Codec.read_eq_ok h
  obtain ⟨numeral, hvalue, hfloat⟩ := Codec.decode_real hdecode
  rw [htext] at hvalue hends
  unfold Document.read at hvalue hends
  dsimp only at hvalue hends
  generalize hread : readValue (2 * (writeReal x).length + 2) (writeReal x) = result at hvalue hends
  obtain ⟨value, left⟩ := result
  cases hvalue
  obtain ⟨rest, rfl, hnumeral⟩ := readNumeral_of_readValue hread
  rw [skipBlanks_of_unbroken (unbroken_writeReal x)] at hnumeral
  -- What is left has no blanks either, so there is nothing left.
  have hrest : rest = [] := by
    have hunbroken := (unbroken_writeReal x).subset (stops_readNumeral.suffix hnumeral).subset
    simpa [skipBlanks_of_unbroken hunbroken] using hends
  subst hrest
  have heq : Numeral.ofReal x = numeral := by
    unfold Numeral.ofReal
    rw [hnumeral]
  rw [heq]
  exact ⟨hnumeral, hfloat⟩

/-! ## Values -/

namespace Value

mutual

/-- What a document is read as. -/
def source : Value → Source
  | .null => .null
  | .bool value => .bool value
  | .int n => .number (.ofInt n)
  | .real x => .number (.ofReal x)
  | .string s => .string (.ofString s)
  | .array values => .array (elementSources values)
  | .object members => .object (memberSources members)

def elementSources : List Value → List Source
  | [] => []
  | value :: values => value.source :: elementSources values

def memberSources : List (String × Value) → List (Quoted × Source)
  | [] => []
  | (key, value) :: members => (.ofString key, value.source) :: memberSources members

end

theorem elementSources_eq (values : List Value) : elementSources values = values.map source := by
  induction values with
  | nil => rfl
  | cons value values ih => rw [elementSources, ih, List.map_cons]

theorem memberSources_eq (members : List (String × Value)) :
    memberSources members = members.map fun (key, value) => (.ofString key, value.source) := by
  induction members with
  | nil => rfl
  | cons member members ih => rw [memberSources, ih, List.map_cons]

theorem source_ne_null {value : Value} (h : value ≠ .null) : value.source ≠ .null := by
  cases value <;> simp_all [source]

/-- A document whose numbers can be read back, with no more than so many containers inside each
other. -/
inductive Plain : Nat → Value → Prop where
  | null {levels : Nat} : Plain levels .null
  | bool {levels : Nat} (value : Bool) : Plain levels (.bool value)
  | int {levels : Nat} {n : Int} (h : n.natAbs ≤ Numeral.maxSignificand) : Plain levels (.int n)
  | real {levels : Nat} {x : Float} (h : ReadsBack x) : Plain levels (.real x)
  | string {levels : Nat} (s : String) : Plain levels (.string s)
  | array {levels : Nat} {values : List Value} (h : ∀ value ∈ values, Plain levels value) :
    Plain (levels + 1) (.array values)
  | object {levels : Nat} {members : List (String × Value)}
    (h : ∀ member ∈ members, Plain levels member.2) : Plain (levels + 1) (.object members)

/-- The text of the value is read as its source, whatever follows it. -/
def IsRead (value : Value) : Prop :=
  ∀ (fuel : Nat) (rest : List Char), 2 * value.write.length ≤ fuel → Ended rest →
    readValue fuel (value.write ++ rest) = (value.source, some rest)

theorem head_of_numeral {cs : List Char} {numeral : Numeral} (h : readNumeral cs = some (numeral, [])) :
    ∃ c tail, cs = c :: tail ∧ isBlank c = false ∧ c ≠ ']' := by
  cases cs with
  | nil => cases h
  | cons c tail =>
    refine ⟨c, tail, rfl, ?_⟩
    rcases head_of_readNumeral h with rfl | hdigit
    · decide
    · constructor
      · exact isBlank_of_isDigit hdigit
      · rintro rfl
        cases hdigit

theorem readValue_numeral {cs : List Char} {numeral : Numeral} (h : readNumeral cs = some (numeral, []))
    (fuel : Nat) {rest : List Char} (hrest : Ended rest) :
    readValue (fuel + 1) (cs ++ rest) = (.number numeral, some rest) := by
  have hnumeral := stops_readNumeral.append h hrest
  obtain ⟨c, tail, rfl, hblank, -⟩ := head_of_numeral h
  have hhead := head_of_readNumeral h
  unfold readValue
  rw [List.cons_append, skipBlanks_cons hblank]
  rw [List.cons_append, List.nil_append] at hnumeral
  -- No other value starts with a sign or a digit.
  split <;> simp_all

/-- A value starts with a character that is neither a blank nor a closing bracket. -/
theorem Plain.head {levels : Nat} {value : Value} (h : Plain levels value) :
    ∃ c tail, value.write = c :: tail ∧ isBlank c = false ∧ c ≠ ']' := by
  cases h with
  | null => exact ⟨'n', _, rfl, by decide⟩
  | bool value =>
    cases value
    · exact ⟨'f', _, rfl, by decide⟩
    · exact ⟨'t', _, rfl, by decide⟩
  | int h => exact head_of_numeral (readNumeral_writeInt _)
  | real h => exact head_of_numeral h.numeral.1
  | string s => exact ⟨'"', _, rfl, by decide⟩
  | @array _ values h =>
    cases values
    · exact ⟨'[', _, rfl, by decide⟩
    · exact ⟨'[', _, rfl, by decide⟩
  | @object _ members h =>
    cases members
    · exact ⟨'{', _, rfl, by decide⟩
    · exact ⟨'{', _, rfl, by decide⟩

section Elements

variable {value : Value} {fuel : Nat}

/-- What an array is read as from an element on, if it goes on with a text behind that element. -/
def elementsFrom (value : Source) (fuel : Nat) (rest : List Char) : List Source × Option (List Char) :=
  match skipBlanks rest with
  | ',' :: rest => (value :: (readElements fuel rest).1, (readElements fuel rest).2)
  | ']' :: rest => ([value], some rest)
  | _ => ([value, .broken], none)

theorem readElements_succ {rest : List Char} (h : value.IsRead) (hfuel : 2 * value.write.length ≤ fuel)
    (hrest : Ended rest) :
    readElements (fuel + 1) (value.write ++ rest) = elementsFrom value.source fuel rest := by
  rw [readElements, h fuel rest hfuel hrest]
  rfl

theorem readElements_write (rest : List Char) {values : List Value} (h : ∀ value ∈ values, IsRead value)
    (hv : value.IsRead) (hfuel : 2 * (value.write ++ writeElements values).length ≤ fuel) :
    readElements fuel (value.write ++ (writeElements values ++ rest)) =
        (value.source :: elementSources values, some rest) := by
  induction values generalizing value fuel with
  | nil =>
    cases fuel with
    | zero => simp [writeElements] at hfuel
    | succ fuel =>
      simp only [writeElements, List.length_append, List.length_singleton] at hfuel
      exact readElements_succ hv (by omega) (.bracket rest)
  | cons next values ih =>
    cases fuel with
    | zero => simp [writeElements] at hfuel
    | succ fuel =>
      simp only [writeElements, List.length_append, List.length_cons] at hfuel
      have hnext := h next List.mem_cons_self
      have hvalues : ∀ value ∈ values, IsRead value := fun value hmem =>
        h value (List.mem_cons_of_mem _ hmem)
      have hrest := ih hvalues hnext (by rw [List.length_append]; omega : _ ≤ fuel)
      have hcomma : ∀ cs, elementsFrom value.source fuel (',' :: cs) =
          (value.source :: (readElements fuel cs).1, (readElements fuel cs).2) := fun _ => rfl
      simp only [writeElements, List.cons_append, List.append_assoc]
      rw [readElements_succ hv (by omega) (.comma _), hcomma, hrest]
      rfl

end Elements

section Members

variable (key : String) {value : Value} {fuel : Nat}

theorem writeString_append (s : String) (rest : List Char) :
    writeString s ++ rest = '"' :: (s.toList.flatMap escape ++ '"' :: rest) := by
  simp [writeString]

/-- What an object is read as from a member on, if it goes on with a text behind that member. -/
def membersFrom (member : Quoted × Source) (fuel : Nat) (rest : List Char) :
    List (Quoted × Source) × Option (List Char) :=
  match skipBlanks rest with
  | ',' :: rest => (member :: (readMembers fuel rest).1, (readMembers fuel rest).2)
  | '}' :: rest => ([member], some rest)
  | _ => ([member, brokenMember], none)

theorem readMembers_succ {rest : List Char} (h : value.IsRead) (hfuel : 2 * value.write.length ≤ fuel)
    (hrest : Ended rest) :
    readMembers (fuel + 1) (writeString key ++ ':' :: (value.write ++ rest)) =
      membersFrom (.ofString key, value.source) fuel rest := by
  have hvalue := h fuel rest hfuel hrest
  have hquote : isBlank '"' = false := rfl
  have hcolon : isBlank ':' = false := rfl
  simp only [writeString_append, readMembers, skipBlanks_cons hquote, skipBlanks_cons hcolon,
    readQuoted_writeString, hvalue]
  rfl

theorem readMembers_write (rest : List Char) {members : List (String × Value)}
    (h : ∀ member ∈ members, IsRead member.2) (hv : value.IsRead)
    (hfuel : 2 * (writeString key ++ ':' :: (value.write ++ writeMembers members)).length ≤ fuel) :
    readMembers fuel (writeString key ++ ':' :: (value.write ++ (writeMembers members ++ rest))) =
        ((.ofString key, value.source) :: memberSources members, some rest) := by
  induction members generalizing key value fuel with
  | nil =>
    cases fuel with
    | zero => simp at hfuel
    | succ fuel =>
      simp only [writeMembers, List.length_append, List.length_cons] at hfuel
      exact readMembers_succ key hv (by omega) (.brace rest)
  | cons member members ih =>
    rcases member with ⟨nextKey, next⟩
    cases fuel with
    | zero => simp at hfuel
    | succ fuel =>
      simp only [writeMembers, List.length_append, List.length_cons] at hfuel
      have hnext : next.IsRead := h (nextKey, next) List.mem_cons_self
      have hmembers : ∀ member ∈ members, IsRead member.2 :=
        fun member hmem => h member (List.mem_cons_of_mem _ hmem)
      have hlength : 2 * (writeString nextKey ++ ':' :: (next.write ++ writeMembers members)).length ≤
          fuel := by
        simp only [List.length_append, List.length_cons]
        omega
      simp only [writeMembers, List.cons_append, List.append_assoc]
      have hcomma : ∀ cs, membersFrom (.ofString key, value.source) fuel (',' :: cs) =
          ((.ofString key, value.source) :: (readMembers fuel cs).1, (readMembers fuel cs).2) := fun _ => rfl
      rw [readMembers_succ key hv (by omega) (.comma _), hcomma, ih nextKey hmembers hnext hlength]
      rfl

end Members

theorem readValue_quote (fuel : Nat) (cs : List Char) :
    readValue (fuel + 1) ('"' :: cs) =
      match readQuoted cs [] with
      | some (text, rest) => (.string text, some rest)
      | none => (.broken, none) := rfl

theorem readValue_bracket {c : Char} (hblank : isBlank c = false) (hc : c ≠ ']') (fuel : Nat)
    (cs : List Char) :
    readValue (fuel + 1) ('[' :: c :: cs) =
      (.array (readElements fuel (c :: cs)).1, (readElements fuel (c :: cs)).2) := by
  have hopen : isBlank '[' = false := rfl
  simp [readValue, skipBlanks_cons hopen, skipBlanks_cons hblank, hc]

theorem readValue_brace (fuel : Nat) (cs : List Char) :
    readValue (fuel + 1) ('{' :: '"' :: cs) =
      (.object (readMembers fuel ('"' :: cs)).1, (readMembers fuel ('"' :: cs)).2) := rfl

theorem Plain.isRead_of_succ {levels : Nat} {value : Value} (h : Plain levels value)
    (hread : ∀ (fuel : Nat) (rest : List Char), 2 * value.write.length ≤ fuel + 1 → Ended rest →
      readValue (fuel + 1) (value.write ++ rest) = (value.source, some rest)) : value.IsRead := by
  intro fuel rest hfuel hrest
  cases fuel with
  | zero =>
    obtain ⟨c, tail, heq, -⟩ := h.head
    simp [heq] at hfuel
  | succ fuel => exact hread fuel rest hfuel hrest

/-- Every plain value is read back. -/
theorem Plain.isRead {levels : Nat} {value : Value} (h : Plain levels value) : value.IsRead := by
  induction h with
  | null =>
    apply (Plain.null : Plain 0 .null).isRead_of_succ
    intro fuel rest hfuel hrest
    rfl
  | bool value =>
    apply (Plain.bool value : Plain 0 _).isRead_of_succ
    intro fuel rest hfuel hrest
    cases value <;> rfl
  | int h =>
    apply (Plain.int h : Plain 0 _).isRead_of_succ
    intro fuel rest hfuel hrest
    exact readValue_numeral (readNumeral_writeInt _) fuel hrest
  | real h =>
    apply (Plain.real h : Plain 0 _).isRead_of_succ
    intro fuel rest hfuel hrest
    exact readValue_numeral h.numeral.1 fuel hrest
  | string s =>
    apply (Plain.string s : Plain 0 _).isRead_of_succ
    intro fuel rest hfuel hrest
    rw [write, writeString_append, readValue_quote, readQuoted_writeString]
    rfl
  | @array levels values h ih =>
    apply (Plain.array h).isRead_of_succ
    intro fuel rest hfuel hrest
    cases values with
    | nil => rfl
    | cons value values =>
      have hvalue := ih value List.mem_cons_self
      have hvalues : ∀ value ∈ values, IsRead value :=
        fun value hmem => ih value (List.mem_cons_of_mem _ hmem)
      simp only [write, List.length_cons] at hfuel
      have hread := readElements_write rest hvalues hvalue (by omega : _ ≤ fuel)
      obtain ⟨c, tail, hwrite, hblank, hbracket⟩ := (h value List.mem_cons_self).head
      rw [write, List.cons_append, List.append_assoc]
      rw [hwrite, List.cons_append] at hread ⊢
      rw [readValue_bracket hblank hbracket, hread, source]
      rfl
  | @object levels members h ih =>
    apply (Plain.object h).isRead_of_succ
    intro fuel rest hfuel hrest
    cases members with
    | nil => rfl
    | cons member members =>
      rcases member with ⟨key, value⟩
      have hvalue : value.IsRead := ih (key, value) List.mem_cons_self
      have hmembers : ∀ member ∈ members, IsRead member.2 :=
        fun member hmem => ih member (List.mem_cons_of_mem _ hmem)
      simp only [write, List.length_cons] at hfuel
      have hread := readMembers_write key rest hmembers hvalue (by omega : _ ≤ fuel)
      simp only [write, List.cons_append, List.append_assoc]
      rw [writeString_append] at hread ⊢
      rw [readValue_brace, hread, source]
      rfl

theorem Plain.read_text {levels : Nat} {value : Value} (h : Plain levels value) :
    Document.read value.text.toList = ⟨value.source, true⟩ := by
  have hread := h.isRead (2 * value.write.length + 2) [] (by omega) .nothing
  rw [List.append_nil] at hread
  rw [text, String.toList_ofList, Document.read, hread]
  rfl

end Value

/-! ## Looking over what was read -/

namespace Source

theorem areWhole_iff {values : List Source} :
    areWhole values = true ↔ ∀ value ∈ values, value.isWhole = true := by
  induction values with
  | nil => simp [areWhole]
  | cons value values ih => simp [areWhole, ih]

theorem membersAreWhole_iff {members : List (Quoted × Source)} :
    membersAreWhole members = true ↔ ∀ member ∈ members, member.2.isWhole = true := by
  induction members with
  | nil => simp [membersAreWhole]
  | cons member members ih => simp [membersAreWhole, ih]

theorem areUsable_iff {depth : Nat} {values : List Source} :
    areUsable depth values = true ↔ ∀ value ∈ values, value.isUsable depth = true := by
  induction values with
  | nil => simp [areUsable]
  | cons value values ih => simp [areUsable, ih]

theorem membersAreUsable_iff {depth : Nat} {members : List (Quoted × Source)} :
    membersAreUsable depth members = true ↔
      ∀ member ∈ members, member.1.text?.isSome = true ∧ member.2.isUsable depth = true := by
  induction members with
  | nil => simp [membersAreUsable]
  | cons member members ih => simp [membersAreUsable, ih]

end Source

namespace Value

theorem Plain.isWhole {levels : Nat} {value : Value} (h : Plain levels value) :
    value.source.isWhole = true := by
  induction h with
  | array h ih =>
    rw [source, Source.isWhole, Source.areWhole_iff, elementSources_eq]
    intro inner hinner
    obtain ⟨value, hvalue, rfl⟩ := List.mem_map.mp hinner
    exact ih value hvalue
  | object h ih =>
    rw [source, Source.isWhole, Source.membersAreWhole_iff, memberSources_eq]
    intro inner hinner
    obtain ⟨member, hmember, rfl⟩ := List.mem_map.mp hinner
    exact ih member hmember
  | _ => rfl

theorem Plain.isUsable {levels : Nat} {value : Value} (h : Plain levels value) :
    ∀ depth, levels ≤ depth → value.source.isUsable depth = true := by
  induction h with
  | null => exact fun _ _ => rfl
  | bool value => exact fun _ _ => rfl
  | int h => exact fun _ _ => Numeral.isSome_float?_ofInt h
  | real h =>
    intro depth hdepth
    rw [source, Source.isUsable, h.numeral.2]
    rfl
  | string s =>
    intro depth hdepth
    rw [source, Source.isUsable, Quoted.text?_ofString]
    rfl
  | array h ih =>
    intro depth hdepth
    have hne : (depth != 0) = true := by simp; omega
    rw [source, Source.isUsable, hne, Bool.true_and, Source.areUsable_iff, elementSources_eq]
    intro inner hinner
    obtain ⟨value, hvalue, rfl⟩ := List.mem_map.mp hinner
    exact ih value hvalue (depth - 1) (by omega)
  | object h ih =>
    intro depth hdepth
    have hne : (depth != 0) = true := by simp; omega
    rw [source, Source.isUsable, hne, Bool.true_and, Source.membersAreUsable_iff, memberSources_eq]
    intro inner hinner
    obtain ⟨member, hmember, rfl⟩ := List.mem_map.mp hinner
    constructor
    · rw [Quoted.text?_ofString]
      rfl
    · exact ih member hmember (depth - 1) (by omega)

end Value

end PulseCircuit.Json
