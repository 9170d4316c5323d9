/-!
# Ranges of integers

The integers that can be written with so many bits, the sign being one of them.
-/

namespace PulseCircuit

structure IntRange where
  low : Int
  high : Int
deriving DecidableEq, Repr

namespace IntRange

def bits8 : IntRange := ⟨-0x80, 0x7f⟩

def bits32 : IntRange := ⟨-0x80000000, 0x7fffffff⟩

def bits64 : IntRange := ⟨-0x8000000000000000, 0x7fffffffffffffff⟩

def contains (range : IntRange) (n : Int) : Bool := range.low ≤ n ∧ n ≤ range.high

theorem contains_iff {range : IntRange} {n : Int} : range.contains n = true ↔ range.low ≤ n ∧ n ≤ range.high :=
  decide_eq_true_iff

/-- The integer, if it is in the range. -/
def accept? (range : IntRange) (n : Int) : Option Int :=
  if range.contains n then some n else none

theorem accept?_eq_some_iff {range : IntRange} {n m : Int} :
    range.accept? n = some m ↔ n = m ∧ range.low ≤ n ∧ n ≤ range.high := by
  by_cases h : range.low ≤ n ∧ n ≤ range.high
  · simp [accept?, contains, h]
  · simp only [accept?, contains, decide_eq_true_eq, if_neg h, reduceCtorEq, false_iff]
    exact fun hn => h hn.2

end IntRange

end PulseCircuit
