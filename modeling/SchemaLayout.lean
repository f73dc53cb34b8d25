import SchemaLayout.Main
import SchemaLayout.Proofs.Diagram.Recorded
import SchemaLayout.Proofs.Geometry.Accuracy
import SchemaLayout.Proofs.Number.Bits
import SchemaLayout.Proofs.Program.Acceptance
import SchemaLayout.Proofs.Program.Independence
import SchemaLayout.Proofs.Program.Outcome
import SchemaLayout.Proofs.Schema.Describing
import SchemaLayout.Proofs.Schema.EdgeStore
import SchemaLayout.Proofs.Schema.Renumbering
import SchemaLayout.Proofs.Session.FirstError
import SchemaLayout.Proofs.Session.Isolation
import SchemaLayout.Proofs.Session.Operations
import SchemaLayout.Proofs.Session.Paths
import SchemaLayout.Proofs.Session.Progress
import SchemaLayout.Proofs.Tree.Assignments
import SchemaLayout.Proofs.Tree.FirstColumn
import SchemaLayout.Proofs.Tree.Hosts
import SchemaLayout.Proofs.Tree.Monotonicity
import SchemaLayout.Proofs.Tree.Repeats
import SchemaLayout.Proofs.Tree.Saturation
import SchemaLayout.Proofs.Tree.Translation
