import UsageGraph.Kind
import UsageGraph.Key
import UsageGraph.Key.Order
import UsageGraph.Id
import UsageGraph.Usage
import UsageGraph.Directory
import UsageGraph.Scope
import UsageGraph.Fault
import UsageGraph.Scope.Rules
import UsageGraph.Node
import UsageGraph.SystemType
import UsageGraph.Model
import UsageGraph.Model.Ensure
import UsageGraph.Builder
import UsageGraph.Builder.Op
import UsageGraph.Tree
import UsageGraph.Declaration
import UsageGraph.Options
import UsageGraph.Guard
import UsageGraph.Scanner
import UsageGraph.Script
import UsageGraph.Traversal.Walk
import UsageGraph.Traversal.Parts
import UsageGraph.Traversal
import UsageGraph.Closure.Search
import UsageGraph.Closure
import UsageGraph.Closure.Users
import UsageGraph.Closure.Engine
import UsageGraph.Mapping
import UsageGraph.Proofs.Model.WellFormed
import UsageGraph.Proofs.Model.Growth
import UsageGraph.Proofs.View
import UsageGraph.Proofs.View.Model
import UsageGraph.Proofs.View.Ensure
import UsageGraph.Proofs.View.Record
import UsageGraph.Proofs.View.Subsumption
import UsageGraph.Proofs.Builder.Refine
import UsageGraph.Proofs.Reachable
import UsageGraph.Proofs.Builder.Nesting
import UsageGraph.Proofs.Builder.Failure
import UsageGraph.Proofs.Builder.History
import UsageGraph.Proofs.Model.Lengthening
import UsageGraph.Proofs.Model.Usages
import UsageGraph.Proofs.View.Faithful
import UsageGraph.Proofs.Closure.Forward
import UsageGraph.Proofs.Closure.Impact
import UsageGraph.Proofs.Closure.Growth
import UsageGraph.Proofs.Traversal.Outline
import UsageGraph.Proofs.Traversal.Edits
import UsageGraph.Proofs.Traversal.Parts
import UsageGraph.Proofs.Traversal.Coverage
import UsageGraph.Proofs.Traversal.Visits
import UsageGraph.Proofs.Traversal.Module
import UsageGraph.Proofs.Traversal.Coherence
import UsageGraph.Proofs.Traversal.Agreement
import UsageGraph.Proofs.Traversal.Repetition
import UsageGraph.Proofs.Traversal.Signatures
import UsageGraph.Proofs.Traversal.Secondary
import UsageGraph.Proofs.Traversal.Openings
import UsageGraph.Proofs.Traversal.Isolation
import UsageGraph.Proofs.Traversal.Usages
import UsageGraph.Proofs.Traversal.Content
import UsageGraph.Proofs.Traversal.Fidelity
import UsageGraph.Proofs.Traversal.Erasure
import UsageGraph.Proofs.Mapping.Order
import UsageGraph.Proofs.Mapping.Failures
import UsageGraph.Proofs.Model.Representation
import UsageGraph.Proofs.Mapping.Incomplete
import UsageGraph.Proofs.Closure.Memory
import UsageGraph.Proofs.Closure.Answers
import UsageGraph.Proofs.Traversal.Quiet
import UsageGraph.Proofs.Traversal.References
import UsageGraph.Proofs.Traversal.Termination
import UsageGraph.Proofs.Model.Creation
import UsageGraph.Proofs.Key.FullName
import UsageGraph.Proofs.Traversal.Limits
import UsageGraph.Proofs.Traversal.Supertypes
import UsageGraph.Proofs.Key.Order
import UsageGraph.Proofs.Key.Text
import UsageGraph.Proofs.Guard
