import PulseCircuit.Cell
import PulseCircuit.Channel
import PulseCircuit.Circuit.Ancestry
import PulseCircuit.Circuit.Application
import PulseCircuit.Circuit.Basic
import PulseCircuit.Circuit.Consistency
import PulseCircuit.Circuit.Edit
import PulseCircuit.Circuit.Editing
import PulseCircuit.Circuit.Projection
import PulseCircuit.Circuit.Removal
import PulseCircuit.CommandLine.Arguments
import PulseCircuit.CommandLine.Execution
import PulseCircuit.Decimal.Digits
import PulseCircuit.Decimal.Nearest
import PulseCircuit.Decimal.Notation
import PulseCircuit.Decimal.Power
import PulseCircuit.Decimal.Shortest
import PulseCircuit.Distinct
import PulseCircuit.Evaluator
import PulseCircuit.Fault
import PulseCircuit.Folding
import PulseCircuit.Format.Circuit
import PulseCircuit.Format.Element
import PulseCircuit.Format.Report
import PulseCircuit.Format.Scene
import PulseCircuit.Hex
import PulseCircuit.Id
import PulseCircuit.IdPool
import PulseCircuit.IntRange
import PulseCircuit.Json.Codec
import PulseCircuit.Json.Numeral
import PulseCircuit.Json.Source
import PulseCircuit.Json.Value
import PulseCircuit.Ledger
import PulseCircuit.Machine
import PulseCircuit.Main
import PulseCircuit.Operation
import PulseCircuit.Peak
import PulseCircuit.Proofs.Adrift
import PulseCircuit.Proofs.Agreement
import PulseCircuit.Proofs.AlongRow
import PulseCircuit.Proofs.Ascent
import PulseCircuit.Proofs.BeatEffect
import PulseCircuit.Proofs.Beats
import PulseCircuit.Proofs.Blueprint
import PulseCircuit.Proofs.Bounds
import PulseCircuit.Proofs.Cascades
import PulseCircuit.Proofs.Chains
import PulseCircuit.Proofs.Chart
import PulseCircuit.Proofs.Checked
import PulseCircuit.Proofs.Collecting
import PulseCircuit.Proofs.Colours
import PulseCircuit.Proofs.Comparing
import PulseCircuit.Proofs.ComputedOnce
import PulseCircuit.Proofs.Consistent
import PulseCircuit.Proofs.Counting
import PulseCircuit.Proofs.CreationOrder
import PulseCircuit.Proofs.Declared
import PulseCircuit.Proofs.Decoded
import PulseCircuit.Proofs.Descent
import PulseCircuit.Proofs.DyingOut
import PulseCircuit.Proofs.Edits
import PulseCircuit.Proofs.Fading
import PulseCircuit.Proofs.Faithful
import PulseCircuit.Proofs.Faults
import PulseCircuit.Proofs.FeedForward
import PulseCircuit.Proofs.Filling
import PulseCircuit.Proofs.FirstHit
import PulseCircuit.Proofs.Forgotten
import PulseCircuit.Proofs.FreshIds
import PulseCircuit.Proofs.Harvest
import PulseCircuit.Proofs.Horizon
import PulseCircuit.Proofs.Journal
import PulseCircuit.Proofs.JsonText
import PulseCircuit.Proofs.Laid
import PulseCircuit.Proofs.Likeness
import PulseCircuit.Proofs.Links
import PulseCircuit.Proofs.LookingBack
import PulseCircuit.Proofs.Lookup
import PulseCircuit.Proofs.Loops
import PulseCircuit.Proofs.Mutual
import PulseCircuit.Proofs.Numerals
import PulseCircuit.Proofs.Numeric
import PulseCircuit.Proofs.Overdrawn
import PulseCircuit.Proofs.Ownership
import PulseCircuit.Proofs.Pending
import PulseCircuit.Proofs.PlainRecursion
import PulseCircuit.Proofs.Proper
import PulseCircuit.Proofs.Purging
import PulseCircuit.Proofs.QueryOrder
import PulseCircuit.Proofs.RawFiring
import PulseCircuit.Proofs.Reachable
import PulseCircuit.Proofs.Refilling
import PulseCircuit.Proofs.Remembering
import PulseCircuit.Proofs.Removals
import PulseCircuit.Proofs.Reparenting
import PulseCircuit.Proofs.Repeats
import PulseCircuit.Proofs.Reversal
import PulseCircuit.Proofs.RoundTrip
import PulseCircuit.Proofs.RowBeats
import PulseCircuit.Proofs.Running
import PulseCircuit.Proofs.Safe
import PulseCircuit.Proofs.SameState
import PulseCircuit.Proofs.SameTick
import PulseCircuit.Proofs.Scenes
import PulseCircuit.Proofs.Settling
import PulseCircuit.Proofs.Shapes
import PulseCircuit.Proofs.Shelter
import PulseCircuit.Proofs.Steps
import PulseCircuit.Proofs.Subtree
import PulseCircuit.Proofs.Termination
import PulseCircuit.Proofs.Transcript
import PulseCircuit.Proofs.Unchecked
import PulseCircuit.Proofs.Underway
import PulseCircuit.Proofs.Untainted
import PulseCircuit.Proofs.Upstream
import PulseCircuit.Proofs.Walk
import PulseCircuit.Proofs.WholeFloats
import PulseCircuit.Pulse
import PulseCircuit.Scene.Basic
import PulseCircuit.Scene.Build
import PulseCircuit.Scene.Load
import PulseCircuit.Table
import PulseCircuit.Timeline
import PulseCircuit.Toml.Assembly
import PulseCircuit.Toml.Document
import PulseCircuit.Toml.Text
import PulseCircuit.Toml.Value
import PulseCircuit.Toml.Word
import PulseCircuit.Topology
import PulseCircuit.Wire
