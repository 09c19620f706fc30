import AvroResolution.Cache
import AvroResolution.Compatibility
import AvroResolution.Compilation.Validating
import AvroResolution.Decoding
import AvroResolution.Proofs.Decoding.Depth
import AvroResolution.Proofs.Decoding.Record
import AvroResolution.Proofs.Compilation.Builder
import AvroResolution.Proofs.Compilation.Reading
import AvroResolution.Proofs.Compilation.Matching
import AvroResolution.Proofs.Compilation.Reads
import AvroResolution.Proofs.Compilation.Resolving
import AvroResolution.Proofs.Decoding.Symbols
import AvroResolution.Proofs.Decoding.Fields
import AvroResolution.Proofs.Decoding.Compiled
import AvroResolution.Proofs.Decoding.Typing
import AvroResolution.Proofs.Resolution.Conformance
import AvroResolution.Proofs.Decoding.Plain
import AvroResolution.Proofs.Default.Encoding
import AvroResolution.Proofs.Default.Reading
import AvroResolution.Proofs.Decoding.Following
import AvroResolution.Proofs.Compilation.Validating
import AvroResolution.Proofs.Decoding.Validating
import AvroResolution.Proofs.Resolution.Safety
import AvroResolution.Proofs.Resolution.Wire
import AvroResolution.Proofs.Decoding.Congruence
import AvroResolution.Proofs.Resolution.Direct
import AvroResolution.Proofs.Resolution.Picks
import AvroResolution.Proofs.Resolution.Correctness
import AvroResolution.Proofs.Compilation.Trace
import AvroResolution.Proofs.Compilation.Progress
import AvroResolution.Proofs.Compilation.ResolvingSteps
import AvroResolution.Proofs.Compilation.ValidatingSteps
import AvroResolution.Proofs.Resolution.Totality
import AvroResolution.Proofs.Resolution.Timing
import AvroResolution.Proofs.Schema.Mirror
import AvroResolution.Proofs.Compilation.Itself
import AvroResolution.Proofs.Resolution.Identity
import AvroResolution.Proofs.Decoding.Exact
import AvroResolution.Proofs.Default.Denotation
import AvroResolution.Proofs.Resolution.Replay
import AvroResolution.Proofs.Decoding.Delimiting
import AvroResolution.Proofs.Decoding.Ending
import AvroResolution.Proofs.Resolution.Termination
import AvroResolution.Proofs.Resolution.RoundTrip
import AvroResolution.Proofs.Literal.Text
import AvroResolution.Proofs.Schema.Form
import AvroResolution.Proofs.Schema.Merged
import AvroResolution.Proofs.Schema.Separation
import AvroResolution.Proofs.Schema.Revision
import AvroResolution.Proofs.Default.Revision
import AvroResolution.Proofs.Compilation.Descent
import AvroResolution.Proofs.Compilation.Revision
import AvroResolution.Proofs.Resolution.Revision
import AvroResolution.Proofs.Resolution.Caching
import AvroResolution.Proofs.Resolution.Transparency
import AvroResolution.Proofs.Default.Completeness
import AvroResolution.Proofs.Default.Exactness
import AvroResolution.Proofs.Compilation.RevisedChoice
import AvroResolution.Proofs.Resolution.Undefaulted
import AvroResolution.Proofs.Resolution.Apart
import AvroResolution.Proofs.Resolution.Skimming
import AvroResolution.Proofs.Resolution.WriterDefaults
import AvroResolution.Proofs.Default.Expansion
import AvroResolution.Proofs.Resolution.FieldOrder
import AvroResolution.Proofs.Compilation.BottomUp
import AvroResolution.Proofs.Compilation.Twins
import AvroResolution.Proofs.Resolution.Precedence
import AvroResolution.Proofs.Resolution.Clashes
import AvroResolution.Proofs.Wire.Varint
import AvroResolution.Proofs.Decoding.Blocks
import AvroResolution.Proofs.Resolution.Blocks
import AvroResolution.Proofs.Decoding.Proportion
import AvroResolution.Proofs.Compilation.EnumDefaults
import AvroResolution.Proofs.Resolution.EnumDefaults
import AvroResolution.Proofs.Wire.Integer
import AvroResolution.Proofs.Wire.Shortest
import AvroResolution.Proofs.Program.Traversal
import AvroResolution.Proofs.Decoding.Encounters
import AvroResolution.Proofs.Resolution.Compatibility
import AvroResolution.Proofs.Resolution.Cycles
import AvroResolution.Proofs.Schema.Names
import AvroResolution.Proofs.Compilation.Journal
import AvroResolution.Proofs.Compilation.Journaling
import AvroResolution.Proofs.Resolution.OneSymbol
