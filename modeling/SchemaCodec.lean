import SchemaCodec.Engine.Messages
import SchemaCodec.Engine.Values
import SchemaCodec.Schema.Document
import SchemaCodec.Value.Equality
import SchemaCodec.Proofs.Engine.Reencoding
import SchemaCodec.Proofs.Engine.SelfDelimiting
import SchemaCodec.Proofs.Engine.Shipping
import SchemaCodec.Proofs.Schema.Ordering
import SchemaCodec.Proofs.Schema.Reachability
import SchemaCodec.Proofs.Text.ByteOrder
import SchemaCodec.Proofs.Schema.Completeness
import SchemaCodec.Proofs.Engine.Frame
import SchemaCodec.Proofs.Schema.Rejection
import SchemaCodec.Proofs.Engine.Rejection
import SchemaCodec.Proofs.Engine.CompilationOrder
import SchemaCodec.Proofs.Program.Conformance
import SchemaCodec.Proofs.Registry.Guarded
import SchemaCodec.Proofs.Engine.Guarded
import SchemaCodec.Proofs.Engine.Drift
import SchemaCodec.Proofs.Wire.Streams
import SchemaCodec.Proofs.Engine.Stability
import SchemaCodec.Proofs.Engine.Residue
import SchemaCodec.Proofs.Engine.Layout
import SchemaCodec.Proofs.Engine.BoundedSlice
import SchemaCodec.Proofs.Plan.Recoding
import SchemaCodec.Proofs.TypeName.Cutting
import SchemaCodec.Proofs.TypeName.Arguments
import SchemaCodec.Proofs.TypeName.Spelling
import SchemaCodec.Proofs.Registry.Denotation
import SchemaCodec.Proofs.Registry.Calls
import SchemaCodec.Proofs.Registry.Spelling
import SchemaCodec.Proofs.TypeName.Canonical
import SchemaCodec.Proofs.TypeName.Substitution
import SchemaCodec.Proofs.Program.Naming
import SchemaCodec.Proofs.Program.Legibility
import SchemaCodec.Proofs.Program.Portrayal
import SchemaCodec.Proofs.Schema.Likeness
import SchemaCodec.Proofs.Registry.Instantiation
import SchemaCodec.Proofs.Engine.Instantiation
import SchemaCodec.Proofs.Engine.NamedInstances
import SchemaCodec.Proofs.Engine.Resynthesis
import SchemaCodec.Proofs.Engine.Fingerprints
import SchemaCodec.Proofs.Schema.Faithfulness
import SchemaCodec.Proofs.Engine.Inline
import SchemaCodec.Proofs.Engine.DecodeLimits
import SchemaCodec.Proofs.Engine.Inflation
import SchemaCodec.Proofs.Program.Recasting
import SchemaCodec.Proofs.Schema.Rearrangement
import SchemaCodec.Proofs.Plan.Graphs
import SchemaCodec.Proofs.Registry.Acquaintance
import SchemaCodec.Proofs.Engine.DeclarationOrder
import SchemaCodec.Proofs.TypeName.Trees
import SchemaCodec.Proofs.Registry.Termination
import SchemaCodec.Proofs.TypeName.Grammar
import SchemaCodec.Proofs.Registry.Phrases
import SchemaCodec.Proofs.TypeName.Simultaneous
import SchemaCodec.Proofs.Schema.Polynomial
import SchemaCodec.Proofs.Wire.Transcript
import SchemaCodec.Proofs.Plan.Draft
import SchemaCodec.Proofs.Plan.Failures
import SchemaCodec.Proofs.Engine.FixedWidth
import SchemaCodec.Proofs.Engine.Nesting
import SchemaCodec.Proofs.Engine.Rounds
import SchemaCodec.Proofs.Program.Unqualified
