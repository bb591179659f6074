import ODataOptions.Text.Quoted

/-!
# Search expressions

What `$search` looks for, and its canonical text.
-/

namespace ODataOptions

inductive SearchExpression
  | term (word : String)
  | phrase (text : String)
  | not (operand : SearchExpression)
  | and (left right : SearchExpression)
  | or (left right : SearchExpression)
deriving DecidableEq, Repr, Inhabited

namespace SearchExpression

/-- The canonical text: phrases in quotes, and parentheses around every `AND` and `OR`. -/
def print : SearchExpression → String
  | .term word => word
  | .phrase text => "\"" ++ String.ofList (Text.Escaped.encode '"' text.toList) ++ "\""
  | .not operand => "NOT " ++ operand.print
  | .and left right => "(" ++ left.print ++ " AND " ++ right.print ++ ")"
  | .or left right => "(" ++ left.print ++ " OR " ++ right.print ++ ")"

end SearchExpression

end ODataOptions
