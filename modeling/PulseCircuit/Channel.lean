/-!
# Colours and timings

The two things a wire filters on. Pulses travel in three colours that do not mix, and a wire looks
for its source in the same tick as its target, one tick earlier or one tick later.
-/

namespace PulseCircuit

/-- One of the three independent channels. -/
inductive Colour where
  | red
  | green
  | blue
deriving DecidableEq, Repr

namespace Colour

/-- The colours in the order in which they are evaluated. -/
def all : List Colour := [.red, .green, .blue]

def name : Colour → String
  | .red => "red"
  | .green => "green"
  | .blue => "blue"

theorem mem_all (colour : Colour) : colour ∈ all := by
  cases colour <;> simp [all]

end Colour

/-- The colours a wire lets through: all of them, or only one. -/
inductive ColourFilter where
  | any
  | only (colour : Colour)
deriving DecidableEq, Repr

namespace ColourFilter

def all : List ColourFilter := .any :: Colour.all.map .only

def name : ColourFilter → String
  | .any => "any"
  | .only colour => colour.name

def admits : ColourFilter → Colour → Bool
  | .any, _ => true
  | .only wanted, colour => wanted == colour

theorem admits_only {wanted colour : Colour} :
    (only wanted).admits colour = true ↔ wanted = colour := by
  simp [admits]

end ColourFilter

/-- Where a wire or a question looks in time, relative to where it is asked. -/
inductive Timing where
  | past
  | now
  | future
deriving DecidableEq, Repr

namespace Timing

def all : List Timing := [.past, .now, .future]

def name : Timing → String
  | .past => "past"
  | .now => "now"
  | .future => "future"

/-- Walking a wire from its target to its source turns its timing round. -/
def flip : Timing → Timing
  | .past => .future
  | .now => .now
  | .future => .past

/-- The number of ticks to step: `-1`, `0` or `1`. -/
def step : Timing → Int
  | .past => -1
  | .now => 0
  | .future => 1

/-- The timing with the given step. -/
def ofStep? (raw : Int) : Option Timing :=
  if raw = -1 then some .past
  else if raw = 0 then some .now
  else if raw = 1 then some .future
  else none

theorem flip_flip (timing : Timing) : timing.flip.flip = timing := by
  cases timing <;> rfl

theorem step_flip (timing : Timing) : timing.flip.step = -timing.step := by
  cases timing <;> rfl

theorem ofStep?_step (timing : Timing) : ofStep? timing.step = some timing := by
  cases timing <;> rfl

end Timing

end PulseCircuit
