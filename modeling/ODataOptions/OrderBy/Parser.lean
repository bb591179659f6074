import ODataOptions.Expression.Parser
import ODataOptions.OrderBy.Basic

/-!
# Parsing of sort keys

The value of `$orderby` is a list of expressions with a primitive value, each of which may be
followed by the word `asc` or `desc`.
-/

namespace ODataOptions

open ODataOptions.Parser

namespace OrderByItem

def parse (scope : Scope) (owner : StructuredType) : Parser OrderByItem := do
  let key ← Expression.parse scope owner
  if key.type = .structured then
    throw { problem := .keyNotPrimitive key.expression, span := key.span }
  let descending := (← oneOfWords (if · then "desc" else "asc") [true, false]).getD false
  return { expression := key.expression, descending }

end OrderByItem

def OrderBy.parse (scope : Scope) (owner : StructuredType) : Parser OrderBy :=
  separated (OrderByItem.parse scope owner) .comma

end ODataOptions
