import ODataOptions.Expression.Parser

/-!
# Filters

The value of `$filter` is an expression that is true or false, as far as its class is known.
-/

namespace ODataOptions

open ODataOptions.Parser

def Expression.parseFilter (scope : Scope) (owner : StructuredType) : Parser Expression := do
  let filter ← Expression.parse scope owner
  if filter.type.accepts .boolean then return filter.expression
  else throw { problem := .filterNotBoolean filter.type, span := filter.span }

end ODataOptions
