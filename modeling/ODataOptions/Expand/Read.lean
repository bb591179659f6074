import ODataOptions.Expand.Parser
import ODataOptions.Parser.Text

/-!
# Expansions as texts

The value of `$expand` by itself, without a query string around it.
-/

namespace ODataOptions

/-- Reads the value of an `$expand` option on entities of the type `owner`.  No parameter alias is
defined, and the default limits apply. -/
def Expand.read (schema : Schema) (owner : StructuredType) (source : String) :
    Except Fault Expand :=
  (Parser.complete .expand (Expand.parse { schema } owner)).onText source

end ODataOptions
