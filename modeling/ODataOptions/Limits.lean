/-!
# Limits

The bounds that keep a hostile query from costing more than it should.
-/

namespace ODataOptions

/-- How much a query may ask for. -/
structure Limits where
  /-- How many `$expand` may stand inside one another, counting the outermost. -/
  expandDepth : Nat := 16
  /-- How many bytes a query string may have. -/
  queryLength : Nat := 8192
  /-- How many parentheses, negations and method calls may stand inside one another in an
  expression. -/
  expressionDepth : Nat := 32
deriving DecidableEq, Repr, Inhabited

end ODataOptions
