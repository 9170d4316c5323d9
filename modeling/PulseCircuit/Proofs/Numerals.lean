import PulseCircuit.Json.Source
import PulseCircuit.Json.Value
import PulseCircuit.Proofs.WholeFloats
import Mathlib.Data.List.TakeWhile

/-!
# Numerals

How numbers are read out of the text they were written to.

* `Stops`: a reader that looks no further than the end of what it reads, as the readers of numerals do
  (`stops_readNumeral`);
* `Numeral.ofInt`: the numeral an integer is written as, and what it stands for;
* `readNumeral_writeInt`: it is read back;
* `unbroken_writeReal`: there are no blanks in the text of a floating-point number.
-/

namespace PulseCircuit

/-! ## Digits -/

namespace Decimal

theorem valueOf_digitsOf (n : Nat) : valueOf (digitsOf n) = n := Nat.ofDigitChars_ten_toDigits

theorem isDigit_of_mem_digitsOf {n : Nat} {c : Char} (h : c ∈ digitsOf n) : c.isDigit = true :=
  Nat.isDigit_of_mem_toDigits (by decide) (by decide) h

theorem digitsOf_ne_nil (n : Nat) : digitsOf n ≠ [] := Nat.toDigits_ne_nil

/-- A number that is not zero has no zeros in front. -/
theorem head?_digitsOf {n : Nat} (h : n ≠ 0) : (digitsOf n).head? ≠ some '0' := by
  induction n using Nat.strongRecOn with
  | ind n ih =>
    by_cases hlt : n < 10
    · have hdigit : ∀ m < 10, m ≠ 0 → Nat.digitChar m ≠ '0' := by decide
      rw [digitsOf, Nat.toDigits_of_lt_base hlt]
      simpa using hdigit n hlt h
    · have hfront := ih (n / 10) (by omega) (by omega)
      obtain ⟨c, cs, hdigits⟩ := List.exists_cons_of_ne_nil (digitsOf_ne_nil (n / 10))
      have heq : digitsOf n = digitsOf (n / 10) ++ [Nat.digitChar (n % 10)] :=
        Nat.toDigits_of_base_le (by decide) (by omega)
      rw [heq, hdigits]
      rwa [hdigits] at hfront

end Decimal

namespace Json

open Decimal

/-! ## Readers that stop -/

/-- What may follow a value in a text. -/
inductive Ended : List Char → Prop where
  | nothing : Ended []
  | comma (rest : List Char) : Ended (',' :: rest)
  | bracket (rest : List Char) : Ended (']' :: rest)
  | brace (rest : List Char) : Ended ('}' :: rest)

theorem spanDigits_append (cs : List Char) {rest : List Char} (h : Ended rest) :
    spanDigits (cs ++ rest) = ((spanDigits cs).1, (spanDigits cs).2 ++ rest) := by
  unfold spanDigits
  induction cs with
  | nil => cases h <;> rfl
  | cons c cs ih =>
    obtain ⟨htake, hdrop⟩ := Prod.mk.inj ih
    by_cases hc : c.isDigit = true
    · simp [hc, htake, hdrop]
    · simp [hc]

theorem spanDigits_suffix (cs : List Char) : (spanDigits cs).2 <:+ cs := List.dropWhile_suffix _

/-- A reader that stops by itself: it reads the same when the text goes on with what may follow a
value, and leaves an end of the text. -/
structure Stops {α : Type} (read : List Char → Option (α × List Char)) : Prop where
  append : ∀ {cs rest : List Char} {a : α} {left : List Char},
    read cs = some (a, left) → Ended rest → read (cs ++ rest) = some (a, left ++ rest)
  suffix : ∀ {cs : List Char} {a : α} {left : List Char}, read cs = some (a, left) → left <:+ cs

theorem stops_readWhole : Stops readWhole := by
  constructor
  · intro cs rest digits left hread hrest
    unfold readWhole at hread ⊢
    rw [spanDigits_append cs hrest]
    generalize spanDigits cs = span at hread
    obtain ⟨front, tail⟩ := span
    split at hread
    · cases hread
    · cases hread
    next hnil hzero =>
      cases hread
      split <;> simp_all
  · intro cs digits left hread
    have hsuffix := spanDigits_suffix cs
    unfold readWhole at hread
    split at hread <;> simp_all

theorem stops_readFraction : Stops readFraction := by
  constructor
  · intro cs rest digits left hread hrest
    unfold readFraction at hread ⊢
    split at hread
    next tail =>
      simp only [List.cons_append, spanDigits_append tail hrest]
      generalize spanDigits tail = span at hread
      obtain ⟨front, tail⟩ := span
      cases front with
      | nil => cases hread
      | cons d front => cases hread; rfl
    next hpoint =>
      cases hread
      cases cs with
      | nil => cases hrest <;> rfl
      | cons c cs =>
        have hc : c ≠ '.' := fun heq => hpoint cs (by rw [heq])
        simp [hc]
  · intro cs digits left hread
    unfold readFraction at hread
    split at hread
    next tail =>
      have hsuffix := spanDigits_suffix tail
      split at hread
      · cases hread
      next hspan =>
        cases hread
        rw [hspan] at hsuffix
        exact hsuffix.trans (List.suffix_cons _ _)
    next =>
      cases hread
      exact List.suffix_refl _

theorem splitSign_append {cs : List Char} (h : cs ≠ []) (rest : List Char) :
    splitSign (cs ++ rest) = ((splitSign cs).1, (splitSign cs).2 ++ rest) := by
  cases cs with
  | nil => exact absurd rfl h
  | cons c cs =>
    unfold splitSign
    simp only [List.cons_append]
    split <;> simp_all

theorem splitSign_suffix (cs : List Char) : (splitSign cs).2 <:+ cs := by
  unfold splitSign
  split
  · exact List.suffix_cons _ _
  · exact List.suffix_cons _ _
  · exact List.suffix_refl _

theorem stops_readExponentDigits : Stops readExponentDigits := by
  constructor
  · intro cs rest exponent left hread hrest
    unfold readExponentDigits at hread ⊢
    have hcs : cs ≠ [] := by
      rintro rfl
      cases hread
    rw [splitSign_append hcs]
    dsimp only at hread ⊢
    rw [spanDigits_append _ hrest]
    generalize spanDigits (splitSign cs).2 = span at hread
    obtain ⟨front, tail⟩ := span
    cases front with
    | nil => cases hread
    | cons d front => cases hread; rfl
  · intro cs exponent left hread
    have hsuffix := (spanDigits_suffix (splitSign cs).2).trans (splitSign_suffix cs)
    unfold readExponentDigits at hread
    dsimp only at hread
    split at hread <;> simp_all

theorem Stops.map {α β : Type} {read : List Char → Option (α × List Char)} (h : Stops read)
    (f : α → β) : Stops fun cs => (read cs).map fun (a, left) => (f a, left) := by
  constructor
  · intro cs rest b left hread hrest
    obtain ⟨⟨a, tail⟩, ha, heq⟩ := Option.map_eq_some_iff.mp hread
    cases heq
    dsimp only
    rw [h.append ha hrest]
    rfl
  · intro cs b left hread
    obtain ⟨⟨a, tail⟩, ha, heq⟩ := Option.map_eq_some_iff.mp hread
    cases heq
    exact h.suffix ha

theorem stops_readExponent : Stops readExponent := by
  have hsome := stops_readExponentDigits.map some
  constructor
  · intro cs rest exponent left hread hrest
    unfold readExponent at hread
    split at hread
    · exact hsome.append hread hrest
    · exact hsome.append hread hrest
    next hsmall hlarge =>
      cases hread
      cases cs with
      | nil => cases hrest <;> rfl
      | cons c cs =>
        unfold readExponent
        split <;> simp_all
  · intro cs exponent left hread
    unfold readExponent at hread
    split at hread
    · exact (hsome.suffix hread).trans (List.suffix_cons _ _)
    · exact (hsome.suffix hread).trans (List.suffix_cons _ _)
    · cases hread
      exact List.suffix_refl _

/-- Reads a numeral behind its sign. -/
def readUnsigned (negative : Bool) (cs : List Char) : Option (Numeral × List Char) := do
  let (whole, cs) ← readWhole cs
  let (fraction, cs) ← readFraction cs
  let (exponent, cs) ← readExponent cs
  return (⟨negative, whole, fraction, exponent⟩, cs)

theorem readNumeral_minus (cs : List Char) : readNumeral ('-' :: cs) = readUnsigned true cs := rfl

theorem readNumeral_cons {c : Char} (h : c ≠ '-') (cs : List Char) :
    readNumeral (c :: cs) = readUnsigned false (c :: cs) := by
  unfold readNumeral
  split
  next heq =>
    split at heq
    · simp_all
    · cases heq
      rfl

theorem stops_readUnsigned (negative : Bool) : Stops (readUnsigned negative) := by
  constructor
  · intro cs rest numeral left hread hrest
    unfold readUnsigned at hread ⊢
    simp only [Option.bind_eq_bind, Option.bind_eq_some_iff] at hread
    obtain ⟨⟨whole, behindWhole⟩, hwhole, ⟨fraction, behindFraction⟩, hfraction,
      ⟨exponent, behindExponent⟩, hexponent, heq⟩ := hread
    cases heq
    simp only [Option.bind_eq_bind, stops_readWhole.append hwhole hrest, Option.bind_some,
      stops_readFraction.append hfraction hrest, stops_readExponent.append hexponent hrest]
    rfl
  · intro cs numeral left hread
    unfold readUnsigned at hread
    simp only [Option.bind_eq_bind, Option.bind_eq_some_iff] at hread
    obtain ⟨⟨whole, behindWhole⟩, hwhole, ⟨fraction, behindFraction⟩, hfraction,
      ⟨exponent, behindExponent⟩, hexponent, heq⟩ := hread
    cases heq
    exact (stops_readExponent.suffix hexponent).trans
      ((stops_readFraction.suffix hfraction).trans (stops_readWhole.suffix hwhole))

theorem stops_readNumeral : Stops readNumeral := by
  constructor
  · intro cs rest numeral left hread hrest
    cases cs with
    | nil => cases hread
    | cons c cs =>
      by_cases hc : c = '-'
      · subst hc
        exact (stops_readUnsigned true).append hread hrest
      · rw [List.cons_append, readNumeral_cons hc, ← List.cons_append]
        rw [readNumeral_cons hc] at hread
        exact (stops_readUnsigned false).append hread hrest
  · intro cs numeral left hread
    cases cs with
    | nil => cases hread
    | cons c cs =>
      by_cases hc : c = '-'
      · subst hc
        exact ((stops_readUnsigned true).suffix hread).trans (List.suffix_cons _ _)
      · rw [readNumeral_cons hc] at hread
        exact (stops_readUnsigned false).suffix hread

/-- A numeral starts with a sign or a digit. -/
theorem head_of_readNumeral {c : Char} {cs left : List Char} {numeral : Numeral}
    (h : readNumeral (c :: cs) = some (numeral, left)) : c = '-' ∨ c.isDigit = true := by
  by_cases hc : c = '-'
  · exact .inl hc
  · right
    by_contra hdigit
    rw [readNumeral_cons hc] at h
    simp [readUnsigned, readWhole, spanDigits, hdigit] at h

/-! ## Integers -/

/-- The numeral an integer is written as. -/
def Numeral.ofInt (n : Int) : Numeral := ⟨n < 0, digitsOf n.natAbs, [], none⟩

theorem Numeral.int?_ofInt (n : Int) : (Numeral.ofInt n).int? = some n := by
  unfold int? ofInt isPlain
  rw [valueOf_digitsOf]
  by_cases hn : n < 0
  · obtain ⟨k, hk⟩ : ∃ k, n.natAbs = k + 1 := ⟨n.natAbs - 1, by omega⟩
    simp only [hn, hk]
    simp
    omega
  · simp [hn]
    omega

/-- Digits that fit into the significand are all taken. -/
theorem takeDigits_eq (digits : List Char) {significand : Nat} (taken : Nat)
    (h : digits.foldl (fun value c => 10 * value + digitValue c) significand ≤ Numeral.maxSignificand) :
    Numeral.takeDigits digits significand taken =
      (digits.foldl (fun value c => 10 * value + digitValue c) significand,
        taken + digits.length, 0) := by
  induction digits generalizing significand taken with
  | nil => rfl
  | cons c digits ih =>
    have hgrows : ∀ (cs : List Char) (n : Nat),
        n ≤ cs.foldl (fun value c => 10 * value + digitValue c) n := by
      intro cs
      induction cs with
      | nil => exact fun n => Nat.le_refl n
      | cons d cs ih =>
        intro n
        exact Nat.le_trans (by omega) (ih (10 * n + digitValue d))
    have hnext : 10 * significand + digitValue c ≤ Numeral.maxSignificand :=
      Nat.le_trans (hgrows digits _) h
    unfold Numeral.takeDigits
    dsimp only
    rw [if_pos hnext, ih (taken + 1) h]
    rw [List.foldl_cons, List.length_cons, Nat.add_assoc, Nat.add_comm 1]

theorem Numeral.scaled_ofInt {n : Int} (h : n.natAbs ≤ maxSignificand) :
    (ofInt n).scaled = (n.natAbs, 0) := by
  have hvalue : (digitsOf n.natAbs).foldl (fun value c => 10 * value + digitValue c) 0 = n.natAbs :=
    Nat.ofDigitChars_ten_toDigits
  have htake := takeDigits_eq (digitsOf n.natAbs) 0 (by rw [hvalue]; exact h)
  rw [hvalue] at htake
  simp [scaled, ofInt, htake, takeDigits]

theorem Numeral.isSome_float?_ofInt {n : Int} (h : n.natAbs ≤ maxSignificand) :
    (ofInt n).float?.isSome = true := by
  unfold float?
  rw [scaled_ofInt h]
  simp [scaleUp?, isInf_mul_one]

theorem spanDigits_digitsOf (n : Nat) : spanDigits (digitsOf n) = (digitsOf n, []) := by
  have hall : ∀ c ∈ digitsOf n, c.isDigit = true := fun c hc => isDigit_of_mem_digitsOf hc
  simp only [spanDigits, List.takeWhile_eq_self_iff.mpr hall, List.dropWhile_eq_nil_iff.mpr hall]

theorem readWhole_digitsOf (n : Nat) : readWhole (digitsOf n) = some (digitsOf n, []) := by
  unfold readWhole
  rw [spanDigits_digitsOf]
  split
  next heq => exact absurd (congrArg Prod.fst heq) (digitsOf_ne_nil n)
  next d digits _ heq =>
    have hdigits : digitsOf n = '0' :: d :: digits := congrArg Prod.fst heq
    by_cases hn : n = 0
    · subst hn
      cases hdigits
    · exact absurd (by rw [hdigits]; rfl) (head?_digitsOf hn)
  next heq =>
    cases heq
    rfl

theorem readUnsigned_digitsOf (negative : Bool) (n : Nat) :
    readUnsigned negative (digitsOf n) = some (⟨negative, digitsOf n, [], none⟩, []) := by
  unfold readUnsigned
  rw [readWhole_digitsOf]
  rfl

theorem readNumeral_writeInt (n : Int) : readNumeral (writeInt n) = some (.ofInt n, []) := by
  unfold writeInt Numeral.ofInt
  split
  next h =>
    rw [readNumeral_minus, readUnsigned_digitsOf]
    simp [h]
  next h =>
    obtain ⟨c, cs, hdigits⟩ := List.exists_cons_of_ne_nil (digitsOf_ne_nil n.natAbs)
    have hc : c.isDigit = true := isDigit_of_mem_digitsOf (by rw [hdigits]; exact List.mem_cons_self)
    have hminus : c ≠ '-' := by
      rintro rfl
      cases hc
    rw [hdigits, readNumeral_cons hminus, ← hdigits, readUnsigned_digitsOf]
    simp [h]

theorem toList_toString (n : Int) : (toString n).toList = writeInt n := by
  rw [Int.toString_eq_repr, Int.repr_eq_if]
  unfold writeInt digitsOf
  by_cases hn : n < 0
  · rw [if_pos hn, if_neg (by omega)]
    have habs : (-n).toNat = n.natAbs := by omega
    simp [habs]
  · rw [if_neg hn, if_pos (by omega)]
    have habs : n.toNat = n.natAbs := by omega
    simp [habs]

/-! ## Floating-point numbers -/

/-- No blank among the characters. -/
def Unbroken (cs : List Char) : Prop := ∀ c ∈ cs, isBlank c = false

instance (cs : List Char) : Decidable (Unbroken cs) :=
  List.decidableBAll (fun c => isBlank c = false) cs

theorem isBlank_of_isDigit {c : Char} (h : c.isDigit = true) : isBlank c = false := by
  by_contra hblank
  simp only [isBlank, Bool.not_eq_false, Bool.or_eq_true, beq_iff_eq] at hblank
  rcases hblank with ((rfl | rfl) | rfl) | rfl <;> cases h

theorem unbroken_digitsOf (n : Nat) : Unbroken (digitsOf n) := fun _ hc =>
  isBlank_of_isDigit (isDigit_of_mem_digitsOf hc)

theorem Unbroken.append {cs ds : List Char} (h : Unbroken cs) (h' : Unbroken ds) :
    Unbroken (cs ++ ds) := by
  intro c hc
  rcases List.mem_append.mp hc with hc | hc
  · exact h c hc
  · exact h' c hc

theorem Unbroken.cons {c : Char} {cs : List Char} (h : isBlank c = false) (h' : Unbroken cs) :
    Unbroken (c :: cs) := by
  intro d hd
  rcases List.mem_cons.mp hd with rfl | hd
  · exact h
  · exact h' d hd

theorem Unbroken.subset {cs ds : List Char} (h : Unbroken cs) (hsub : ds ⊆ cs) : Unbroken ds :=
  fun c hc => h c (hsub hc)

theorem unbroken_replicate (n : Nat) : Unbroken (List.replicate n '0') := by
  intro c hc
  rw [List.eq_of_mem_replicate hc]
  rfl

theorem unbroken_inPlaces {digits : List Char} (h : Unbroken digits) (first : Int) :
    Unbroken (inPlaces digits first) := by
  unfold inPlaces
  split
  · exact ((by decide : Unbroken "0.".toList).append (unbroken_replicate _)).append h
  · have hpadded := h.append (unbroken_replicate (first.toNat + 1 - digits.length))
    apply (hpadded.subset (List.take_subset _ _)).append
    apply Unbroken.cons rfl
    split
    · decide
    · exact hpadded.subset (List.drop_subset _ _)

theorem unbroken_withExponent {digits : List Char} (h : Unbroken digits) (first : Int) :
    Unbroken (withExponent digits first) := by
  unfold withExponent
  apply Unbroken.append
  · apply Unbroken.append
    · exact h.subset (List.take_subset _ _)
    · split
      · decide
      · exact Unbroken.cons rfl (h.subset (List.drop_subset _ _))
  · apply Unbroken.cons rfl
    apply Unbroken.cons
    · split <;> rfl
    · exact unbroken_digitsOf _

theorem unbroken_write (style : DecimalNotation) (d : Decimal) : Unbroken (d.write style) := by
  unfold Decimal.write
  dsimp only
  split
  · exact unbroken_inPlaces (unbroken_digitsOf _) _
  · exact unbroken_withExponent (unbroken_digitsOf _) _

theorem unbroken_writeReal (x : Float) : Unbroken (writeReal x) := by
  have hsign : Unbroken (if signBit x then ['-'] else []) := by split <;> decide
  have hnull : Unbroken "null".toList := by decide
  have hzero : Unbroken "0.0".toList := by decide
  unfold writeReal writeFloat?
  dsimp only
  generalize (if signBit x = true then ['-'] else []) = sign at hsign
  split
  · split
    · exact hsign.append hzero
    · cases ofFloat? x with
      | none => exact hnull
      | some d => exact hsign.append (unbroken_write _ d)
  · exact hnull

end Json

end PulseCircuit
