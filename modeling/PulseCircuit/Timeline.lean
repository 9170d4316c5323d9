import PulseCircuit.Circuit.Projection

/-!
# Timelines

The circuits a question looks at, by their distance in ticks from the present one: `0` is the
present, `-1`, `-2`, … are earlier ticks and `1`, `2`, … later ones. Ticks nobody recorded are
imagined by projection while the question is answered.
-/

namespace PulseCircuit

/-- Where the circuit of a tick comes from. -/
inductive Origin where
  | given
  | projected
deriving DecidableEq, Repr

structure Frame where
  origin : Origin
  circuit : Circuit
deriving DecidableEq

structure Timeline where
  frames : Table Int Frame

namespace Timeline

/-- Puts given circuits at the ticks `sign`, `2 * sign`, … counted on from `distance`. -/
def record (sign : Int) : Nat → List Circuit → Timeline → Timeline
  | _, [], t => t
  | distance, c :: cs, t =>
    record sign (distance + 1) cs
      ⟨t.frames.insert (sign * (distance + 1 : Nat)) ⟨.given, c⟩⟩

/-- The present circuit with earlier and later ones, nearest first. -/
def ofHistory (present : Circuit) (past future : List Circuit) : Timeline :=
  record 1 0 future (record (-1) 0 past ⟨Table.empty.insert 0 ⟨.given, present⟩⟩)

def frame? (t : Timeline) (offset : Int) : Option Frame := t.frames.get? offset

def contains (t : Timeline) (offset : Int) : Bool := t.frames.contains offset

/-- Adds an imagined tick. -/
def imagine (t : Timeline) (offset : Int) (c : Circuit) : Timeline :=
  ⟨t.frames.insert offset ⟨.projected, c⟩⟩

/-- The largest number of rows in any tick. -/
def width (t : Timeline) : Nat :=
  t.frames.values.foldl (fun width frame => max width frame.circuit.size) 0

end Timeline

end PulseCircuit
