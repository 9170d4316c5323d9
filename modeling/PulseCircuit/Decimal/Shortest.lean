import PulseCircuit.Decimal.Power

/-!
# The shortest decimal of a floating-point number

A finite number that is not zero is `m * 2 ^ q` for whole numbers `m` and `q`. The reals that round
to it form an interval around it, whose ends belong to it exactly when `m` is even. Among the
decimals in this interval we take one with the fewest digits, of those the nearest, and of two that
are equally near the one with the even last digit.

On the grid of the multiples of `10 ^ k` only the two neighbours of the number have to be tried: if
any point of the grid lies in the interval, one of them does. So grids are tried from the coarse to
the fine, and the first that hits has the fewest digits.
-/

namespace PulseCircuit

/-- The number `digits * 10 ^ exponent`. -/
structure Decimal where
  digits : Nat
  exponent : Int
deriving DecidableEq, Repr

namespace Decimal

/-- A positive number between the ends of its rounding interval, all counted in units of
`2 ^ unit`. -/
structure Interval where
  low : Nat
  centre : Nat
  high : Nat
  unit : Int
  /-- The ends belong to the interval. -/
  closed : Bool
deriving DecidableEq, Repr

/-- The rounding interval of a number, given by its fraction and exponent fields. Below a power of
two the neighbouring numbers lie twice as close as above it. -/
def Interval.ofFields (fraction exponent : Nat) : Interval :=
  let m := if exponent = 0 then fraction else fraction + pow2 52
  let narrow := fraction = 0 ∧ 1 < exponent
  { low := if narrow then 4 * m - 1 else 4 * m - 2
    centre := 4 * m
    high := 4 * m + 2
    unit := (max exponent 1 : Nat) - 1077
    closed := m % 2 = 0 }

/-- The grid of the multiples of `10 ^ k` against the units of an interval: `a` steps of the grid
make `b` units exactly when `a * step = b * scale`. -/
structure Grid where
  step : Nat
  scale : Nat

def Grid.ofExponent (i : Interval) (k : Int) : Grid where
  step := pow10 k.toNat * pow2 (-i.unit).toNat
  scale := pow2 i.unit.toNat * pow10 (-k).toNat

/-- The point of the grid lies in the interval. -/
def Interval.holds (i : Interval) (g : Grid) (point : Nat) : Bool :=
  if i.closed then i.low * g.scale ≤ point * g.step ∧ point * g.step ≤ i.high * g.scale
  else i.low * g.scale < point * g.step ∧ point * g.step < i.high * g.scale

/-- The neighbour of the centre on the grid that lies in the interval. If both do it is the nearer
one, or the even one. -/
def Interval.hit? (i : Interval) (g : Grid) : Option Nat :=
  let below := i.centre * g.scale / g.step
  let above := below + 1
  match i.holds g below, i.holds g above with
  | true, true =>
    let down := i.centre * g.scale - below * g.step
    let up := above * g.step - i.centre * g.scale
    if down < up ∨ down = up ∧ below % 2 = 0 then some below else some above
  | true, false => some below
  | false, true => some above
  | false, false => none

/-- Tries the grid of `10 ^ k`, and then the finer ones. -/
def Interval.search (i : Interval) : Nat → Int → Option Decimal
  | 0, _ => none
  | fuel + 1, k =>
    match i.hit? (.ofExponent i k) with
    | some digits => some ⟨digits, k⟩
    | none => i.search fuel (k - 1)

/-- An exponent of ten whose power lies above the whole interval, though not far. -/
def Interval.ceiling (i : Interval) : Int :=
  ((i.high.log2 + 1 : Nat) + i.unit) * 30103 / 100000 + 1

/-- The shortest decimal in the interval. Seventeen digits always suffice. -/
def Interval.shortest? (i : Interval) : Option Decimal := i.search 22 i.ceiling

end Decimal

/-- The sign bit of a number. It tells `-0.0` from `0.0`. -/
def signBit (x : Float) : Bool := x.toBits.toNat / Decimal.pow2 63 = 1

/-- The shortest decimal that rounds to the magnitude of a finite number that is not zero. -/
def Decimal.ofFloat? (x : Float) : Option Decimal :=
  let bits := x.toBits.toNat
  (Interval.ofFields (bits % pow2 52) (bits / pow2 52 % pow2 11)).shortest?

end PulseCircuit
