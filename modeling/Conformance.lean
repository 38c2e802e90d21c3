import Conformance.Blueprint
import Conformance.Context
import Conformance.Decode
import Conformance.Json.Reader
import Conformance.Pipeline
import Conformance.Rejection.Document
import Conformance.Proofs.Graph
import Conformance.Proofs.Walk
import Conformance.Proofs.Absence
import Conformance.Proofs.Acceptance
import Conformance.Proofs.Outputs
import Conformance.Proofs.Conforms
import Conformance.Proofs.Leaves
import Conformance.Proofs.Modes
import Conformance.Proofs.Keys
import Conformance.Proofs.Reading
import Conformance.Proofs.SameData
import Conformance.Proofs.Trimming
import Conformance.Proofs.Reports
import Conformance.Proofs.Truthful
import Conformance.Proofs.Merging
import Conformance.Proofs.Composition
import Conformance.Proofs.Repetition
import Conformance.Proofs.Idempotence
import Conformance.Proofs.Pruning
import Conformance.Proofs.Unguarded
import Conformance.Proofs.Contractive
import Conformance.Proofs.Guard
import Conformance.Proofs.Leniency
import Conformance.Proofs.Coercion
import Conformance.Proofs.Compatible
import Conformance.Proofs.Intersections
import Conformance.Proofs.Omission
import Conformance.Proofs.Survey
import Conformance.Proofs.Traversals
import Conformance.Proofs.DepthLimit
import Conformance.Proofs.Resolved
import Conformance.Proofs.Lowering
import Conformance.Proofs.Collecting
import Conformance.Proofs.Abreast
import Conformance.Proofs.Undeclared
import Conformance.Proofs.History
import Conformance.Proofs.Chains
import Conformance.Proofs.Routing
import Conformance.Proofs.Gates
import Conformance.Proofs.Calls
import Conformance.Proofs.KeyOrder
import Conformance.Proofs.Anchoring
import Conformance.Proofs.Building
import Conformance.Proofs.WriteOnce
import Conformance.Proofs.Custody
import Conformance.Proofs.Hops
import Conformance.Proofs.LeastAbsence
import Conformance.Proofs.NumberText
import Conformance.Proofs.NumericEquality
import Conformance.Proofs.Nodes
import Conformance.Proofs.Truncation
import Conformance.Proofs.Declarations
import Conformance.Proofs.Pointers
import Conformance.Proofs.Verbatim
import Conformance.Proofs.Expressions
import Conformance.Proofs.Turns
import Conformance.Proofs.Procedures
