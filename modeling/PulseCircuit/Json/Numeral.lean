import PulseCircuit.Decimal.Digits

/-!
# Numerals

A number of a JSON text, kept as it is written: what it stands for depends on what is asked of it.
Asked for an integer, it must be written as one. Asked for a floating-point number, it is reckoned
from its leading digits in machine arithmetic, so a long numeral may come out one step away from the
nearest number.
-/

namespace PulseCircuit.Json

structure Numeral where
  negative : Bool
  /-- The digits before the point. -/
  whole : List Char
  /-- The digits behind the point, none if there is no point. -/
  fraction : List Char
  /-- The exponent: whether it is negative, and its digits. -/
  exponent : Option (Bool × List Char)
deriving DecidableEq, Repr

namespace Numeral

open Decimal

/-- Written without point and exponent. -/
def isPlain (n : Numeral) : Bool := n.fraction.isEmpty && n.exponent.isNone

/-- The integer a plain numeral stands for. Minus zero is not one. -/
def int? (n : Numeral) : Option Int :=
  if n.isPlain then
    match n.negative, valueOf n.whole with
    | false, value => some value
    | true, 0 => none
    | true, value => some (-value)
  else none

/-! ## Floating-point numbers -/

/-- The largest significand that is reckoned with. -/
def maxSignificand : Nat := 0xffffffffffffffff

/-- Takes up digits while the significand has room. Returns what it comes to, how many digits were
taken, and how many were left. -/
def takeDigits : List Char → Nat → Nat → Nat × Nat × Nat
  | [], significand, taken => (significand, taken, 0)
  | c :: digits, significand, taken =>
    let next := 10 * significand + digitValue c
    if next ≤ maxSignificand then takeDigits digits next (taken + 1)
    else (significand, taken, digits.length + 1)

/-- The significand of a numeral and the power of ten it is to be scaled by. Digits that found no
room raise the power if they stand before the point. -/
def scaled (n : Numeral) : Nat × Int :=
  let (significand, _, dropped) := takeDigits n.whole 0 0
  let (significand, taken, _) := takeDigits n.fraction significand 0
  let exponent : Int :=
    match n.exponent with
    | none => 0
    | some (negative, digits) => if negative then -valueOf digits else valueOf digits
  (significand, dropped - taken + exponent)

/-- The floating-point number nearest to a power of ten. -/
def powerOfTen (e : Nat) : Float := Float.ofScientific 1 false e

/-- Multiplies by a power of ten. There is no result if it is too large. -/
def scaleUp? (x : Float) (e : Nat) : Option Float :=
  if e ≤ 308 then
    let y := x * powerOfTen e
    if y.isInf then none else some y
  else if x == 0 then some x
  else none

/-- Divides by a power of ten, in steps of at most `10 ^ 308`. Whatever has 64 bits is zero after
two such steps. -/
def scaleDown (x : Float) (e : Nat) : Float :=
  if e ≤ 308 then x / powerOfTen e
  else if e ≤ 616 then x / powerOfTen 308 / powerOfTen (e - 308)
  else 0

/-- The floating-point number a numeral stands for, if it is not too large for one. -/
def float? (n : Numeral) : Option Float :=
  let (significand, e) := n.scaled
  let x := significand.toUInt64.toFloat
  let magnitude := if 0 ≤ e then scaleUp? x e.toNat else some (scaleDown x (-e).toNat)
  magnitude.map fun y => if n.negative then -y else y

end Numeral

end PulseCircuit.Json
