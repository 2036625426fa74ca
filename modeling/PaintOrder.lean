import PaintOrder.Main
import PaintOrder.Proofs.Outcome
import PaintOrder.Proofs.Partition.Division
import PaintOrder.Proofs.Partition.Construction
import PaintOrder.Proofs.Partition.Fragments
import PaintOrder.Proofs.Partition.Completeness
import PaintOrder.Proofs.Partition.Endless
import PaintOrder.Proofs.Code.Bytes
import PaintOrder.Proofs.Code.Encoding
import PaintOrder.Proofs.Code.Program
import PaintOrder.Proofs.Code.Walk
import PaintOrder.Proofs.Code.Assembly
import PaintOrder.Proofs.Code.Emission
import PaintOrder.Proofs.Code.Trees
import PaintOrder.Proofs.Model.Hierarchy
import PaintOrder.Proofs.Model.Layout
import PaintOrder.Proofs.Model.Nesting
import PaintOrder.Proofs.Model.Emission
import PaintOrder.Proofs.Model.Descendants
import PaintOrder.Proofs.Code.Recovery
import PaintOrder.Proofs.Model.Recovery
import PaintOrder.Proofs.Model.Linking
import PaintOrder.Proofs.Model.Room
import PaintOrder.Proofs.Model.RoundTrip
import PaintOrder.Proofs.Code.Room
import PaintOrder.Proofs.Model.Acceptance
import PaintOrder.Proofs.Partition.Validity
import PaintOrder.Proofs.Code.Decoding
import PaintOrder.Proofs.Code.Calls
import PaintOrder.Proofs.Model.Recovered
import PaintOrder.Proofs.Code.Checked
import PaintOrder.Proofs.Code.SafeReading
import PaintOrder.Proofs.Code.SafeSteps
import PaintOrder.Proofs.Code.Safety
import PaintOrder.Proofs.Model.Untrusted
import PaintOrder.Proofs.Code.History
import PaintOrder.Proofs.Code.Retrace
import PaintOrder.Proofs.Model.Format
import PaintOrder.Proofs.Code.Sizes
import PaintOrder.Proofs.Model.Capacity
import PaintOrder.Proofs.Code.BackToBack
import PaintOrder.Proofs.Code.Links
import PaintOrder.Proofs.Model.Coverage
import PaintOrder.Proofs.Code.Subcode
import PaintOrder.Proofs.Model.Standalone
import PaintOrder.Proofs.Partition.Cutting
import PaintOrder.Proofs.Model.Recompilation
import PaintOrder.Proofs.Command.Recompile
import PaintOrder.Proofs.Model.Verdict
import PaintOrder.Proofs.Model.Links
import PaintOrder.Proofs.Partition.Scoring
import PaintOrder.Proofs.Geometry.Split
import PaintOrder.Proofs.Code.Appending
import PaintOrder.Proofs.Model.Refusals
import PaintOrder.Proofs.Model.CallOrder
import PaintOrder.Proofs.Binary64.Value
import PaintOrder.Proofs.Binary64.Nearest
import PaintOrder.Proofs.Binary64.Arithmetic
import PaintOrder.Proofs.Geometry.Coordinates
import PaintOrder.Proofs.Geometry.Distance
import PaintOrder.Proofs.Geometry.Clean
import PaintOrder.Proofs.Code.Locality
import PaintOrder.Proofs.Model.Locality
import PaintOrder.Proofs.Model.Sources
import PaintOrder.Proofs.Code.Numbering
import PaintOrder.Proofs.Partition.Coplanar
import PaintOrder.Proofs.Partition.Choice
import PaintOrder.Proofs.Model.Bounds
