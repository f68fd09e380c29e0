import AnnotatedCircuit.AnchorPool
import AnnotatedCircuit.Attempt
import AnnotatedCircuit.Binary64.Basic
import AnnotatedCircuit.Binary64.Shortest
import AnnotatedCircuit.CommandLine.Arguments
import AnnotatedCircuit.CommandLine.Run
import AnnotatedCircuit.Design.Basic
import AnnotatedCircuit.Design.Check
import AnnotatedCircuit.Design.Edit
import AnnotatedCircuit.Design.Entity
import AnnotatedCircuit.Design.Error
import AnnotatedCircuit.Design.Id
import AnnotatedCircuit.Design.Json
import AnnotatedCircuit.Failure
import AnnotatedCircuit.Hierarchy.Basic
import AnnotatedCircuit.Hierarchy.Order
import AnnotatedCircuit.Hierarchy.Paths
import AnnotatedCircuit.Json.Basic
import AnnotatedCircuit.Json.Decode
import AnnotatedCircuit.Json.Input
import AnnotatedCircuit.Json.Number
import AnnotatedCircuit.Json.Printer
import AnnotatedCircuit.Json.Reader
import AnnotatedCircuit.Json.Token
import AnnotatedCircuit.Lowering.Handler
import AnnotatedCircuit.Lowering.Options
import AnnotatedCircuit.Lowering.Report
import AnnotatedCircuit.Lowering.Run
import AnnotatedCircuit.Lowering.State
import AnnotatedCircuit.Main
import AnnotatedCircuit.NameSupply
import AnnotatedCircuit.Note.Attachments
import AnnotatedCircuit.Note.Basic
import AnnotatedCircuit.OrderedMap
import AnnotatedCircuit.Proofs.AnchorPool
import AnnotatedCircuit.Proofs.Binary64.Decimal
import AnnotatedCircuit.Proofs.Binary64.Rounding
import AnnotatedCircuit.Proofs.Binary64.Shortest
import AnnotatedCircuit.Proofs.Binary64.Text
import AnnotatedCircuit.Proofs.CommandLine
import AnnotatedCircuit.Proofs.Design.Atomicity
import AnnotatedCircuit.Proofs.Design.Coherent
import AnnotatedCircuit.Proofs.Design.Construction
import AnnotatedCircuit.Proofs.Design.Continued
import AnnotatedCircuit.Proofs.Design.CrossLinks
import AnnotatedCircuit.Proofs.Design.Decoded
import AnnotatedCircuit.Proofs.Design.Drives
import AnnotatedCircuit.Proofs.Design.Edits
import AnnotatedCircuit.Proofs.Design.Growth
import AnnotatedCircuit.Proofs.Design.History
import AnnotatedCircuit.Proofs.Design.Json
import AnnotatedCircuit.Proofs.Design.Mirrors
import AnnotatedCircuit.Proofs.Design.Nesting
import AnnotatedCircuit.Proofs.Design.Reissue
import AnnotatedCircuit.Proofs.Design.Reserved
import AnnotatedCircuit.Proofs.Design.Roundtrip
import AnnotatedCircuit.Proofs.Design.Stored
import AnnotatedCircuit.Proofs.Design.Substitution
import AnnotatedCircuit.Proofs.Design.Symbols
import AnnotatedCircuit.Proofs.Design.Tables
import AnnotatedCircuit.Proofs.Design.Text
import AnnotatedCircuit.Proofs.Design.Verified
import AnnotatedCircuit.Proofs.Hierarchy.Acyclic
import AnnotatedCircuit.Proofs.Hierarchy.Answers
import AnnotatedCircuit.Proofs.Hierarchy.Chains
import AnnotatedCircuit.Proofs.Hierarchy.Containment
import AnnotatedCircuit.Proofs.Hierarchy.Cycles
import AnnotatedCircuit.Proofs.Hierarchy.Orders
import AnnotatedCircuit.Proofs.Hierarchy.Paths
import AnnotatedCircuit.Proofs.Hierarchy.Replacement
import AnnotatedCircuit.Proofs.Hierarchy.Search
import AnnotatedCircuit.Proofs.Hierarchy.Sites
import AnnotatedCircuit.Proofs.Hierarchy.Stack
import AnnotatedCircuit.Proofs.Hierarchy.Trails
import AnnotatedCircuit.Proofs.Json.Decode
import AnnotatedCircuit.Proofs.Json.Nesting
import AnnotatedCircuit.Proofs.Json.Number
import AnnotatedCircuit.Proofs.Json.Reading
import AnnotatedCircuit.Proofs.Json.Rereading
import AnnotatedCircuit.Proofs.Json.Scanning
import AnnotatedCircuit.Proofs.Lowering.Accounts
import AnnotatedCircuit.Proofs.Lowering.Anchors
import AnnotatedCircuit.Proofs.Lowering.BlackBoxes
import AnnotatedCircuit.Proofs.Lowering.Ending
import AnnotatedCircuit.Proofs.Lowering.Ends
import AnnotatedCircuit.Proofs.Lowering.Forest
import AnnotatedCircuit.Proofs.Lowering.Origins
import AnnotatedCircuit.Proofs.Lowering.Pins
import AnnotatedCircuit.Proofs.Lowering.References
import AnnotatedCircuit.Proofs.Lowering.Refusals
import AnnotatedCircuit.Proofs.Lowering.Soundness
import AnnotatedCircuit.Proofs.Lowering.Stored
import AnnotatedCircuit.Proofs.Lowering.Tolerance
import AnnotatedCircuit.Proofs.Lowering.Verdict
import AnnotatedCircuit.Proofs.Lowering.Worklist
import AnnotatedCircuit.Proofs.NameSupply
import AnnotatedCircuit.Proofs.NameSupply.Histories
import AnnotatedCircuit.Proofs.Note.Moving
import AnnotatedCircuit.Proofs.OrderedMap
import AnnotatedCircuit.Proofs.Outcome
import AnnotatedCircuit.Proofs.SignalType.FieldId
import AnnotatedCircuit.Proofs.SignalType.Json
import AnnotatedCircuit.Proofs.SignalType.Lookups
import AnnotatedCircuit.Proofs.SignalType.Numbering
import AnnotatedCircuit.Proofs.Target.Continued
import AnnotatedCircuit.Proofs.Target.Listed
import AnnotatedCircuit.Proofs.Target.Path
import AnnotatedCircuit.Proofs.Target.Resolution
import AnnotatedCircuit.Proofs.Target.Settled
import AnnotatedCircuit.Proofs.Target.Soundness
import AnnotatedCircuit.Proofs.Wiring.BareModules
import AnnotatedCircuit.Proofs.Wiring.Blindness
import AnnotatedCircuit.Proofs.Wiring.Closings
import AnnotatedCircuit.Proofs.Wiring.Courses
import AnnotatedCircuit.Proofs.Wiring.Delivery
import AnnotatedCircuit.Proofs.Wiring.Faults
import AnnotatedCircuit.Proofs.Wiring.Frame
import AnnotatedCircuit.Proofs.Wiring.Grown
import AnnotatedCircuit.Proofs.Wiring.Handover
import AnnotatedCircuit.Proofs.Wiring.Instances
import AnnotatedCircuit.Proofs.Wiring.Joining
import AnnotatedCircuit.Proofs.Wiring.Locality
import AnnotatedCircuit.Proofs.Wiring.Meeting
import AnnotatedCircuit.Proofs.Wiring.Notes
import AnnotatedCircuit.Proofs.Wiring.PlanBounds
import AnnotatedCircuit.Proofs.Wiring.PlannedNames
import AnnotatedCircuit.Proofs.Wiring.PlannedPorts
import AnnotatedCircuit.Proofs.Wiring.PlannedTypes
import AnnotatedCircuit.Proofs.Wiring.Planning
import AnnotatedCircuit.Proofs.Wiring.Progress
import AnnotatedCircuit.Proofs.Wiring.Records
import AnnotatedCircuit.Proofs.Wiring.Reissue
import AnnotatedCircuit.Proofs.Wiring.Renames
import AnnotatedCircuit.Proofs.Wiring.Run
import AnnotatedCircuit.Proofs.Wiring.Signatures
import AnnotatedCircuit.Proofs.Wiring.Soundness
import AnnotatedCircuit.Proofs.Wiring.Stored
import AnnotatedCircuit.Proofs.Wiring.Tally
import AnnotatedCircuit.Proofs.Wiring.Targets
import AnnotatedCircuit.Proofs.Wiring.Turns
import AnnotatedCircuit.Proofs.Wiring.Visit
import AnnotatedCircuit.Proofs.Wiring.WellTyped
import AnnotatedCircuit.SignalType.Basic
import AnnotatedCircuit.SignalType.FieldId
import AnnotatedCircuit.SignalType.Json
import AnnotatedCircuit.Target.Kind
import AnnotatedCircuit.Target.Path
import AnnotatedCircuit.Target.Resolve
import AnnotatedCircuit.Wiring.Plan
import AnnotatedCircuit.Wiring.Realize
import AnnotatedCircuit.Word
