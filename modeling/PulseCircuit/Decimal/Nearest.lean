import PulseCircuit.Decimal.Digits
import PulseCircuit.Decimal.Shortest

/-!
# The floating-point number nearest to a decimal

A decimal is a quotient of whole numbers. It is counted in units of `2 ^ unit`, where the unit is as
fine as 53 bits allow and no finer than the smallest positive number, and the count is rounded, a
tie to the even count. Counts of one unit follow each other as bit patterns do, so the pattern is
the count plus one step for each unit.
-/

namespace PulseCircuit

namespace Decimal

/-- A positive quotient of whole numbers. -/
structure Ratio where
  num : Nat
  den : Nat

namespace Ratio

def ofDecimal (d : Decimal) : Ratio :=
  ⟨d.digits * pow10 d.exponent.toNat, pow10 (-d.exponent).toNat⟩

/-- How many units of `2 ^ unit` make up the quotient. -/
def inUnits (r : Ratio) (unit : Int) : Ratio :=
  ⟨r.num * pow2 (-unit).toNat, r.den * pow2 unit.toNat⟩

def floor (r : Ratio) : Nat := r.num / r.den

/-- The nearest whole number. A half goes to the even one. -/
def round (r : Ratio) : Nat :=
  let below := r.num / r.den
  let excess := 2 * (r.num % r.den)
  if r.den < excess ∨ r.den = excess ∧ below % 2 = 1 then below + 1 else below

/-- The exponent of the smallest positive number. -/
def finestUnit : Int := -1074

/-- The finest unit of which the quotient has fewer than `2 ^ 53`. -/
def unit (r : Ratio) : Int :=
  let guess := max ((r.num.log2 : Int) - r.den.log2 - 53) finestUnit
  if (r.inUnits guess).floor < pow2 53 then guess else guess + 1

end Ratio

/-- The bits of positive infinity. -/
def infinityBits : Nat := 0x7ff * pow2 52

/-- More than every number. -/
def infinity : Float := Float.ofBits (UInt64.ofNat infinityBits)

/-- The bits of the nearest number. What is too large is infinite. A decimal whose first digit is
far from the point on either side need not be looked at closely. -/
def nearestBits (d : Decimal) : Nat :=
  let places := d.exponent + (digitsOf d.digits).length
  if d.digits = 0 ∨ places < -330 then 0
  else if 310 < places then infinityBits
  else
    let r := Ratio.ofDecimal d
    min infinityBits ((r.unit - Ratio.finestUnit).toNat * pow2 52 + (r.inUnits r.unit).round)

/-- The floating-point number nearest to a decimal. -/
def toFloat (d : Decimal) : Float := Float.ofBits (UInt64.ofNat (nearestBits d))

end Decimal

end PulseCircuit
