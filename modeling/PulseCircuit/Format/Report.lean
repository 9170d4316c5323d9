import PulseCircuit.Format.Element
import PulseCircuit.Machine

/-!
# Reports in JSON

What is written and never read back: counters, what was carried out, what a beat did, and the
entries of a ledger.
-/

namespace PulseCircuit

open Json

def EvalStats.toValue (stats : EvalStats) : Value :=
  .object
    [("computed", .int stats.computed),
      ("memo_hits", .int stats.memoHits),
      ("projections", .int stats.projections),
      ("fixed_points", .int stats.fixedPoints),
      ("deepest", .int stats.deepest)]

def Applied.toValue (applied : Applied) : Value :=
  .object
    [("operations", (Codec.list Operation.codec).encode applied.operations),
      ("pongs", (Codec.list CellId.codec).encode applied.pongs)]

def BeatReport.toValue (report : BeatReport) : Value :=
  .object
    [("beat", .int report.beat),
      ("firing", (Codec.list CellId.codec).encode report.firing),
      ("operations", (Codec.list Operation.codec).encode report.operations),
      ("pongs", (Codec.list CellId.codec).encode report.pongs),
      ("stats", report.stats.toValue)]

/-- The text of a report. -/
def BeatReport.toJson (report : BeatReport) : String := report.toValue.text

def Event.toValue : Event → Value
  | .fired cell colour =>
    .object
      [("event", .string "fired"),
        ("cell", CellId.codec.encode cell),
        ("colour", Colour.codec.encode colour)]
  | .applied operation =>
    .object [("event", .string "applied"), ("operation", Operation.codec.encode operation)]
  | .pong cell => .object [("event", .string "pong"), ("cell", CellId.codec.encode cell)]

def LedgerEntry.toValue (entry : LedgerEntry) : Value :=
  .object [("beat", .int entry.beat), ("kind", entry.event.toValue)]

end PulseCircuit
