/-!
# Powers of two and ten
-/

namespace PulseCircuit

namespace Decimal

def pow2 (e : Nat) : Nat := Nat.pow 2 e

def pow10 (e : Nat) : Nat := Nat.pow 10 e

end Decimal

end PulseCircuit
