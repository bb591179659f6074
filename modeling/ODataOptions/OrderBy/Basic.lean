import ODataOptions.Expression.Printer

/-!
# Sort keys

The keys that `$orderby` sorts by, and their canonical text.
-/

namespace ODataOptions

structure OrderByItem where
  expression : Expression
  descending : Bool := false
deriving DecidableEq, Inhabited

namespace OrderByItem

/-- The canonical text of a key.  The ascending direction goes without saying. -/
def print (item : OrderByItem) : String :=
  if item.descending then item.expression.print ++ " desc" else item.expression.print

end OrderByItem

abbrev OrderBy := List OrderByItem

namespace OrderBy

def print (orderBy : OrderBy) : String := ",".intercalate (orderBy.map OrderByItem.print)

end OrderBy

end ODataOptions
