import ODataOptions.Fault.Diagnostic
import ODataOptions.Proofs.Expand.RoundTrip
import ODataOptions.Proofs.Expression.Precedence
import ODataOptions.Proofs.NameTable
import ODataOptions.Proofs.Query.Limits
import ODataOptions.Proofs.Query.RoundTrip
import ODataOptions.Proofs.Search.Rendering
import ODataOptions.Proofs.Query.Order
import ODataOptions.Proofs.Query.Expansion
import ODataOptions.Proofs.Expression.Height
import ODataOptions.Proofs.Search.Height
import ODataOptions.Proofs.SystemOption.Height
import ODataOptions.Proofs.Parser.Moves
import ODataOptions.Proofs.Parser.Mirrors
import ODataOptions.Proofs.Expression.Mirrors
import ODataOptions.Proofs.Search.Mirrors
import ODataOptions.Proofs.Select.Mirrors
import ODataOptions.Proofs.Expand.Mirrors
import ODataOptions.Proofs.Token.Delimited
import ODataOptions.Proofs.SystemOption.Enclosed
import ODataOptions.Proofs.Query.Enclosed
import ODataOptions.Proofs.Query.Encoding
import ODataOptions.Proofs.Token.Places
import ODataOptions.Proofs.Token.Kinds
import ODataOptions.Proofs.Token.Munch
import ODataOptions.Proofs.Parser.Places
import ODataOptions.Proofs.Expression.Places
import ODataOptions.Proofs.SystemOption.Places
import ODataOptions.Proofs.Expand.Places
import ODataOptions.Proofs.Query.Places
import ODataOptions.Proofs.Token.Coverage
import ODataOptions.Proofs.Parser.Tracks
import ODataOptions.Proofs.Token.Respelling
import ODataOptions.Proofs.Expression.Inlining
import ODataOptions.Proofs.Search.Tracks
import ODataOptions.Proofs.Select.Tracks
import ODataOptions.Proofs.Expression.Tracks
import ODataOptions.Proofs.Expression.Aliases
import ODataOptions.Proofs.Expand.Tracks
import ODataOptions.Proofs.Expand.Gradual
import ODataOptions.Proofs.Token.Layout
import ODataOptions.Proofs.Expand.Layout
import ODataOptions.Proofs.SystemOption.Lists
import ODataOptions.Proofs.SystemOption.Clauses
import ODataOptions.Proofs.SystemOption.ClauseOrder
import ODataOptions.Proofs.Schema.Lineage
import ODataOptions.Proofs.Schema.Extension
import ODataOptions.Proofs.Parser.Agrees
import ODataOptions.Proofs.Expression.Extension
import ODataOptions.Proofs.Expand.Extension
import ODataOptions.Proofs.Schema.Walks
import ODataOptions.Proofs.Schema.Inheritance
import ODataOptions.Proofs.Select.RoundTrip
import ODataOptions.Proofs.Parser.Depths
import ODataOptions.Proofs.Expression.Openings
import ODataOptions.Proofs.Search.Openings
import ODataOptions.Proofs.Expand.Openings
import ODataOptions.Proofs.Parser.Leads
import ODataOptions.Proofs.Parser.Stretches
import ODataOptions.Proofs.Expression.Operands
import ODataOptions.Proofs.Expression.Stretches
import ODataOptions.Proofs.Token.Quoting
import ODataOptions.Proofs.Parser.Regions
import ODataOptions.Proofs.Parser.Recursion
import ODataOptions.Proofs.Expression.Recursion
import ODataOptions.Proofs.Search.Recursion
import ODataOptions.Proofs.Select.Recursion
import ODataOptions.Proofs.Expand.Recursion
import ODataOptions.Proofs.SystemOption.Locality
import ODataOptions.Proofs.SystemOption.Discipline
import ODataOptions.Proofs.SystemOption.Termination
import ODataOptions.Proofs.Text.Decimal
import ODataOptions.Proofs.SystemOption.Integers
import ODataOptions.Proofs.SystemOption.Insertion
