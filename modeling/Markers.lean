import Markers.Conversion.Converters
import Markers.Proofs.Grammar.Completeness
import Markers.Proofs.Marker.Announcement
import Markers.Proofs.Render
import Markers.Proofs.Schema
import Markers.Proofs.Token.Cut
import Markers.Proofs.Token.Down
import Markers.Proofs.Marker.Lines
import Markers.Proofs.Conversion.Registration
import Markers.Proofs.Token.Language
import Markers.Proofs.Conversion.References
import Markers.Proofs.Conversion.Soundness
import Markers.Proofs.Token.LineEnds
import Markers.Proofs.Token.Placed
import Markers.Proofs.Marker.LineEnds
import Markers.Proofs.Schema.Definable
import Markers.Proofs.Schema.Definitions
import Markers.Proofs.Conversion.Integer
import Markers.Proofs.Literal.Integer
import Markers.Proofs.Literal.Escape
import Markers.Proofs.Literal.Complex
import Markers.Proofs.Literal.Base
import Markers.Proofs.Conversion.Oversized
import Markers.Proofs.Conversion.Lists
import Markers.Proofs.Conversion.Check
import Markers.Proofs.Conversion.Supported
import Markers.Proofs.Options.Inserts
import Markers.Proofs.Registry.Defined
import Markers.Proofs.Marker.Resume
import Markers.Proofs.Marker.Pulled
