import PulseCircuit.Operation

/-!
# Peaks

A peak is the answer to the question whether a cell fires in a colour: the pulse that reaches the
cell, if one does, and the operations this pulse wants carried out.
-/

namespace PulseCircuit

inductive Peak where
  | fail (operations : List Operation)
  /-- A halted pulse has come to rest: the cell fires, but cells further on never see the pulse. -/
  | success (pulse : Pulse) (operations : List Operation) (halted : Bool)
deriving BEq, DecidableEq, Repr

namespace Peak

/-- Succeeds if a pulse is given. -/
def ofPulse? (pulse : Option Pulse) (operations : List Operation) : Peak :=
  match pulse with
  | some pulse => .success pulse operations false
  | none => .fail operations

/-- No pulse and nothing to do. -/
def nothing : Peak := .fail []

def isSuccess : Peak → Bool
  | .success .. => true
  | .fail _ => false

def isHalted : Peak → Bool
  | .success _ _ halted => halted
  | .fail _ => false

/-- No further input is looked at. -/
def isFinal : Peak → Bool
  | .success pulse _ halted => halted || pulse.kind != .raw
  | .fail _ => false

def pulse? : Peak → Option Pulse
  | .success pulse _ _ => some pulse
  | .fail _ => none

def operations : Peak → List Operation
  | .success _ operations _ => operations
  | .fail operations => operations

/-- Some operation changes the cell already. -/
def claims (peak : Peak) (cell : CellId) : Bool :=
  peak.operations.any (Operation.claims cell)

theorem isFinal_of_isHalted {peak : Peak} (h : peak.isHalted = true) : peak.isFinal = true := by
  cases peak <;> simp_all [isHalted, isFinal]

end Peak

end PulseCircuit
