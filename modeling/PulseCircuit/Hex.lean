/-!
# Hexadecimal digits
-/

namespace PulseCircuit

namespace Hex

/-- What a hexadecimal digit stands for. Large letters and small ones are the same. -/
def value? (c : Char) : Option Nat :=
  if '0' ≤ c ∧ c ≤ '9' then some (c.toNat - '0'.toNat)
  else if 'a' ≤ c ∧ c ≤ 'f' then some (c.toNat - 'a'.toNat + 10)
  else if 'A' ≤ c ∧ c ≤ 'F' then some (c.toNat - 'A'.toNat + 10)
  else none

/-- The digit for a number below sixteen. -/
def digit (n : Nat) : Char := (Nat.toDigits 16 n).headD '0'

end Hex

end PulseCircuit
