import Stylesheet.Dialect
import Stylesheet.Document.Edit
import Stylesheet.Document.Json
import Stylesheet.Proofs.Blocks
import Stylesheet.Proofs.RoundTrip
import Stylesheet.Proofs.Removal
import Stylesheet.Proofs.Tolerance
import Stylesheet.Proofs.Lossless
import Stylesheet.Proofs.Places
import Stylesheet.Proofs.Spans
import Stylesheet.Proofs.Alignment
import Stylesheet.Proofs.Attribution
import Stylesheet.Proofs.Runs
import Stylesheet.Proofs.Reporting
import Stylesheet.Proofs.InPlace
import Stylesheet.Proofs.Refusal
import Stylesheet.Proofs.Layouts
import Stylesheet.Proofs.Descendants
import Stylesheet.Proofs.Changes
import Stylesheet.Proofs.Determined
import Stylesheet.Proofs.Locality
import Stylesheet.Proofs.Idempotence
import Stylesheet.Proofs.Boundaries
import Stylesheet.Proofs.Order
import Stylesheet.Proofs.Caches
import Stylesheet.Proofs.Brackets
import Stylesheet.Proofs.Insertion
import Stylesheet.Proofs.Inference
import Stylesheet.Proofs.Declared
import Stylesheet.Proofs.Colons
import Stylesheet.Proofs.Values
import Stylesheet.Proofs.Moving
import Stylesheet.Proofs.Copies
import Stylesheet.Proofs.Cloning
import Stylesheet.Proofs.Undo
import Stylesheet.Proofs.Excerpts
import Stylesheet.Proofs.Dependence
import Stylesheet.Proofs.Memo
import Stylesheet.Proofs.Canonical
import Stylesheet.Proofs.Stopping
import Stylesheet.Proofs.Calls
import Stylesheet.Proofs.Counting
import Stylesheet.Proofs.Extents
import Stylesheet.Proofs.Building
import Stylesheet.Proofs.Locating
import Stylesheet.Proofs.Importance
import Stylesheet.Proofs.SecondColon
import Stylesheet.Proofs.Escapes
import Stylesheet.Proofs.Keys
import Stylesheet.Proofs.Preorder
import Stylesheet.Proofs.Tidying
