import RpcSchema.CommandLine.Arguments
import RpcSchema.CommandLine.Run
import RpcSchema.Declaration.Dependency
import RpcSchema.Declaration.Order
import RpcSchema.Dereference
import RpcSchema.Distinct
import RpcSchema.Document.Basic
import RpcSchema.Document.Method
import RpcSchema.Failure
import RpcSchema.Fields
import RpcSchema.Generation
import RpcSchema.Generation.ToJson
import RpcSchema.Identifier
import RpcSchema.Json.Basic
import RpcSchema.Json.Inspection
import RpcSchema.Json.Pointer
import RpcSchema.Json.Reader
import RpcSchema.Json.Record
import RpcSchema.Json.Writer
import RpcSchema.Main
import RpcSchema.Number.Binary64
import RpcSchema.Number.Shortest
import RpcSchema.Pattern.Basic
import RpcSchema.Pattern.CharSet
import RpcSchema.Pattern.Reader
import RpcSchema.Primitive
import RpcSchema.Profile
import RpcSchema.Projection
import RpcSchema.Promotion
import RpcSchema.Proofs.Addresses
import RpcSchema.Proofs.Declaration.Components
import RpcSchema.Proofs.Declaration.Condensation
import RpcSchema.Proofs.Declaration.Order
import RpcSchema.Proofs.Declaration.Preference
import RpcSchema.Proofs.Declaration.Scheduling
import RpcSchema.Proofs.Dereference.Accounts
import RpcSchema.Proofs.Dereference.Anchors
import RpcSchema.Proofs.Dereference.Annotations
import RpcSchema.Proofs.Dereference.Calls
import RpcSchema.Proofs.Dereference.Canonical
import RpcSchema.Proofs.Dereference.Independence
import RpcSchema.Proofs.Dereference.Inlining
import RpcSchema.Proofs.Dereference.Interchange
import RpcSchema.Proofs.Dereference.Leftovers
import RpcSchema.Proofs.Dereference.Markers
import RpcSchema.Proofs.Dereference.Missing
import RpcSchema.Proofs.Dereference.Mooring
import RpcSchema.Proofs.Dereference.Overlay
import RpcSchema.Proofs.Dereference.Properties
import RpcSchema.Proofs.Dereference.Qualification
import RpcSchema.Proofs.Dereference.Repetition
import RpcSchema.Proofs.Dereference.Siblings
import RpcSchema.Proofs.Dereference.Simulation
import RpcSchema.Proofs.Dereference.Sites
import RpcSchema.Proofs.Dereference.Termination
import RpcSchema.Proofs.Dereference.Unresolved
import RpcSchema.Proofs.Dereference.Walks
import RpcSchema.Proofs.Distinct
import RpcSchema.Proofs.Document
import RpcSchema.Proofs.Document.Removal
import RpcSchema.Proofs.Fields
import RpcSchema.Proofs.Generation.Accounts
import RpcSchema.Proofs.Generation.Agreement
import RpcSchema.Proofs.Generation.Closure
import RpcSchema.Proofs.Generation.Failures
import RpcSchema.Proofs.Generation.Naming
import RpcSchema.Proofs.Generation.Precedence
import RpcSchema.Proofs.Generation.Removal
import RpcSchema.Proofs.Generation.Resolution
import RpcSchema.Proofs.Generation.Targets
import RpcSchema.Proofs.Identifier.Constants
import RpcSchema.Proofs.Identifier.Pascal
import RpcSchema.Proofs.Identity
import RpcSchema.Proofs.Json.Equality
import RpcSchema.Proofs.Json.Objects
import RpcSchema.Proofs.Json.Pointer
import RpcSchema.Proofs.Json.Reader
import RpcSchema.Proofs.Json.Spelling
import RpcSchema.Proofs.Localization.Components
import RpcSchema.Proofs.Localization.Copies
import RpcSchema.Proofs.Localization.Extent
import RpcSchema.Proofs.Localization.Positions
import RpcSchema.Proofs.Localization.Redirection
import RpcSchema.Proofs.Localization.Targets
import RpcSchema.Proofs.Outcome
import RpcSchema.Proofs.Primitive
import RpcSchema.Proofs.Projection.Agreement
import RpcSchema.Proofs.Projection.Failures
import RpcSchema.Proofs.Projection.Members
import RpcSchema.Proofs.Projection.Names
import RpcSchema.Proofs.Projection.Payloads
import RpcSchema.Proofs.Projection.Sessions
import RpcSchema.Proofs.Projection.Uses
import RpcSchema.Proofs.Promotion.Completeness
import RpcSchema.Proofs.Promotion.Expansion
import RpcSchema.Proofs.Promotion.Names
import RpcSchema.Proofs.Promotion.Paths
import RpcSchema.Proofs.Promotion.Restoration
import RpcSchema.Proofs.Property.Chains
import RpcSchema.Proofs.Property.Paths
import RpcSchema.Proofs.Reference
import RpcSchema.Proofs.Registration
import RpcSchema.Proofs.Registry
import RpcSchema.Proofs.Schema.Acceptance
import RpcSchema.Proofs.Schema.Equality
import RpcSchema.Proofs.Schema.Faults
import RpcSchema.Proofs.Schema.Names
import RpcSchema.Proofs.Schema.Parts
import RpcSchema.Proofs.Schema.Paths
import RpcSchema.Proofs.Schema.Reading
import RpcSchema.Proofs.Schema.Rebuilding
import RpcSchema.Proofs.Schema.Rereading
import RpcSchema.Proofs.Schema.RoundTrip
import RpcSchema.Proofs.Schema.Writing
import RpcSchema.Proofs.Sharing
import RpcSchema.Proofs.Store
import RpcSchema.Proofs.Template
import RpcSchema.Proofs.Unification.Acknowledgments
import RpcSchema.Proofs.Unification.Branches
import RpcSchema.Proofs.Unification.Classes
import RpcSchema.Proofs.Unification.Collapse
import RpcSchema.Proofs.Unification.Combinations
import RpcSchema.Proofs.Unification.Conflicts
import RpcSchema.Proofs.Unification.Congruence
import RpcSchema.Proofs.Unification.Conjunction
import RpcSchema.Proofs.Unification.Depth
import RpcSchema.Proofs.Unification.Disjunction
import RpcSchema.Proofs.Unification.Distribution
import RpcSchema.Proofs.Unification.Elimination
import RpcSchema.Proofs.Unification.Intersection
import RpcSchema.Proofs.Unification.Keywords
import RpcSchema.Proofs.Unification.Merging
import RpcSchema.Proofs.Unification.Names
import RpcSchema.Proofs.Unification.NormalForm
import RpcSchema.Proofs.Unification.Objects
import RpcSchema.Proofs.Unification.Outlines
import RpcSchema.Proofs.Unification.Tuples
import RpcSchema.Proofs.Unification.Wrappers
import RpcSchema.Reference
import RpcSchema.Registry
import RpcSchema.Schema.Acknowledgment
import RpcSchema.Schema.Basic
import RpcSchema.Schema.OfJson
import RpcSchema.Schema.ToJson
import RpcSchema.Shape
import RpcSchema.Shape.ToJson
import RpcSchema.Store.Basic
import RpcSchema.Store.Property
import RpcSchema.Template
import RpcSchema.Text.CaseFold
import RpcSchema.Text.Category
import RpcSchema.Text.Quoted
import RpcSchema.Text.Replace
import RpcSchema.Unification.Basic
import RpcSchema.Unification.Composition
import RpcSchema.Unification.Conflict
import RpcSchema.Unification.Intersection
import RpcSchema.Unification.Union
