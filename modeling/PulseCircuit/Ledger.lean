import PulseCircuit.Operation

/-!
# Ledgers

A record of what happened in which beat. It is kept only while the ledger is enabled.
-/

namespace PulseCircuit

inductive Event where
  /-- A pulse was stored from outside. -/
  | fired (cell : CellId) (colour : Colour)
  /-- An operation changed the circuit. -/
  | applied (operation : Operation)
  | pong (cell : CellId)
deriving DecidableEq, Repr

structure LedgerEntry where
  beat : Nat
  event : Event
deriving DecidableEq, Repr

structure Ledger where
  entries : List LedgerEntry
  enabled : Bool
deriving DecidableEq, Repr

namespace Ledger

def empty : Ledger := ⟨[], false⟩

def enable (ledger : Ledger) : Ledger := { ledger with enabled := true }

def disable (ledger : Ledger) : Ledger := { ledger with enabled := false }

def clear (ledger : Ledger) : Ledger := { ledger with entries := [] }

/-- Adds an entry, if the ledger is enabled. -/
def record (ledger : Ledger) (beat : Nat) (event : Event) : Ledger :=
  if ledger.enabled then { ledger with entries := ledger.entries ++ [⟨beat, event⟩] } else ledger

def recordAll (ledger : Ledger) (beat : Nat) (events : List Event) : Ledger :=
  events.foldl (record · beat) ledger

def entriesOf (ledger : Ledger) (beat : Nat) : List LedgerEntry :=
  ledger.entries.filter (·.beat = beat)

end Ledger

end PulseCircuit
