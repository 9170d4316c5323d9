import PulseCircuit.Peak

/-!
# Folding

A cell's peak is gathered one input wire at a time. Folding takes the peak gathered so far and the
peak that arrives over a wire (the candidate) to the new peak. There is one rule for each kind of
pulse:

* a raw pulse passes, but turns into a creation or destruction pulse when its source is a cell of
  that kind;
* a ping is answered and passes, unless the target is a stopper;
* a creation pulse takes up cloneable cells as its template, and comes to rest in a slot;
* a destruction pulse comes to rest at a destroyable cell.

The first claim on a cell wins: once a gathered peak changes the target, later creation and
destruction pulses are ignored there.
-/

namespace PulseCircuit

/-- The way a candidate came: over a wire, from its source to its target. -/
structure Hop where
  source : Cell
  target : Cell
  wire : Wire
deriving Repr

namespace Folding

/-- What has been gathered, and the operations of a candidate that adds to it. -/
def gather (previous : Peak) (operations : List Operation) : List Operation :=
  addAllNew previous.operations operations

/-- A creation pulse is ignored at a cell that was just filled or is already being changed. -/
def creation (previous : Peak) (template : Option Template) (operations : List Operation)
    (target : Cell) : Peak :=
  if target.hasTag .justCreated || previous.claims target.id then previous
  else if target.kind = .slot then
    let landed := template.getD (.fallback target.position)
    .success (.creation (some landed))
      (gather previous operations ++
        [.modify target.id (.ofTemplate landed), .tag target.id .justCreated])
      true
  else
    let carried := if target.kind.isCloneable then some target.template else template
    .success (.creation carried) (gather previous operations) false

/-- A destruction pulse is ignored at a cell that is already being changed. -/
def destruction (previous : Peak) (operations : List Operation) (target : Cell) : Peak :=
  if previous.claims target.id then previous
  else if target.kind.isDestroyable then
    .success .destruction
      (gather previous operations ++ [.modify target.id (.ofKind .slot)])
      true
  else .success .destruction (gather previous operations) false

/-- A ping is answered at every cell but a stopper. -/
def ping (previous : Peak) (operations : List Operation) (target : Cell) : Peak :=
  if target.kind = .stopper then previous
  else .success .ping (gather previous operations ++ [.pong target.id]) false

/-- A raw pulse is what the kind of its source makes of it. -/
def raw (previous : Peak) (operations : List Operation) (hop : Hop) : Peak :=
  match hop.source.kind with
  | .creation => creation previous none operations hop.target
  | .destruction => destruction previous operations hop.target
  | _ => .success .raw (gather previous operations) false

end Folding

/-- Folds a candidate into the peak gathered so far. A failed candidate and one that has come to
rest carry nothing over the wire. -/
def Peak.fold (previous next : Peak) (hop : Hop) : Peak :=
  match next with
  | .success .raw operations false => Folding.raw previous operations hop
  | .success (.creation template) operations false =>
    Folding.creation previous template operations hop.target
  | .success .destruction operations false => Folding.destruction previous operations hop.target
  | .success .ping operations false => Folding.ping previous operations hop.target
  | .success _ _ true => previous
  | .fail _ => previous

theorem Peak.fold_fail (previous : Peak) (operations : List Operation) (hop : Hop) :
    previous.fold (.fail operations) hop = previous := rfl

theorem Peak.fold_halted (previous : Peak) (pulse : Pulse) (operations : List Operation)
    (hop : Hop) : previous.fold (.success pulse operations true) hop = previous := by
  cases pulse <;> rfl

end PulseCircuit
