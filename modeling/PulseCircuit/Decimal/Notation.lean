import PulseCircuit.Decimal.Digits
import PulseCircuit.Decimal.Shortest

/-!
# Writing decimals

A decimal is written out in places while its first digit is not too far from the point, and with an
exponent otherwise. How far that is is for the format to say.
-/

namespace PulseCircuit

/-- The exponents of the first digit for which a number is written out in places. -/
structure DecimalNotation where
  lowest : Int
  highest : Int

namespace Decimal

/-- All places written out, with at least one on each side of the point. -/
def inPlaces (digits : List Char) (first : Int) : List Char :=
  if first < 0 then
    "0.".toList ++ List.replicate ((-first).toNat - 1) '0' ++ digits
  else
    let whole := first.toNat + 1
    let padded := digits ++ List.replicate (whole - digits.length) '0'
    let fraction := padded.drop whole
    padded.take whole ++ '.' :: (if fraction.isEmpty then ['0'] else fraction)

/-- One digit before the point, no point if there are no others, and the exponent with its sign. -/
def withExponent (digits : List Char) (first : Int) : List Char :=
  let point := if digits.length ≤ 1 then [] else '.' :: digits.drop 1
  let sign := if first < 0 then '-' else '+'
  digits.take 1 ++ point ++ 'e' :: sign :: digitsOf first.natAbs

def write (n : DecimalNotation) (d : Decimal) : List Char :=
  let digits := digitsOf d.digits
  let first := d.exponent + digits.length - 1
  if n.lowest ≤ first ∧ first ≤ n.highest then inPlaces digits first
  else withExponent digits first

/-- A number by its shortest decimal. What is not finite has none. -/
def writeFloat? (n : DecimalNotation) (x : Float) : Option (List Char) :=
  if x.isFinite then
    let sign := if signBit x then ['-'] else []
    if x == 0 then some (sign ++ "0.0".toList)
    else (ofFloat? x).map fun d => sign ++ d.write n
  else none

end Decimal

end PulseCircuit
