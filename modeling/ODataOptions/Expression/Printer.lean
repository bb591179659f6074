import ODataOptions.Expression.Basic
import ODataOptions.Text.Quoted

/-!
# Canonical text of expressions

Every operation is printed with parentheses around it, so the text does not depend on the
precedence of the operators.
-/

namespace ODataOptions

namespace Literal

/-- The text of a constant.  Strings are put in quotes. -/
def print : Literal → String
  | .null => "null"
  | .boolean value => if value then "true" else "false"
  | .integer value => toString value
  | .decimal text => text
  | .string text => "'" ++ String.ofList (Text.Doubled.encode '\'' text.toList) ++ "'"
  | .date text => text
  | .dateTimeOffset text => text
  | .guid text => text

end Literal

namespace Member

def printPath (path : List Member) : String := "/".intercalate (path.map name)

end Member

namespace Expression

mutual

def print : Expression → String
  | .literal value => value.print
  | .member path => Member.printPath path
  | .parameter name => "@" ++ name
  | .not operand => "(not " ++ print operand ++ ")"
  | .binary operator left right =>
    "(" ++ print left ++ " " ++ operator.keyword ++ " " ++ print right ++ ")"
  | .call method arguments => method.name ++ "(" ++ ",".intercalate (printAll arguments) ++ ")"

def printAll : List Expression → List String
  | [] => []
  | expression :: expressions => print expression :: printAll expressions

end

theorem printAll_eq_map (expressions : List Expression) :
    printAll expressions = expressions.map print := by
  induction expressions with
  | nil => rfl
  | cons expression expressions ih => simp [printAll, ih]

end Expression

end ODataOptions
