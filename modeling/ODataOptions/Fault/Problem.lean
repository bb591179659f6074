import ODataOptions.Expression.Printer
import ODataOptions.Expression.Typing
import ODataOptions.Fault.Key
import ODataOptions.Limits

/-!
# Problems

What can be wrong with a query, said by its cause.  The key, the wording and the parameters of each
cause are given here and nowhere else.
-/

namespace ODataOptions

/-- The cause of a fault. -/
inductive Problem
  /-- Something else than the token found was expected. -/
  | unexpected (expected : String) (found : Token)
  /-- Text that is no token. -/
  | invalidText (text : String)
  /-- A token behind the value of an option. -/
  | trailing (option : OptionKind) (found : Token)
  /-- An option keyword was expected that is allowed in its context. -/
  | optionExpected (found : Token)
  /-- An integer literal that does not fit 64 bits. -/
  | integerOutOfRange (text : String)
  /-- The option `$levels` outside of `$expand`. -/
  | levelsAtTop
  /-- An option with a name that only looks like that of a system query option. -/
  | unknownOption (name : String)
  /-- A number that its option does not admit. -/
  | wrongValue (option text : String)
  /-- A query string of more bytes than allowed. -/
  | queryTooLong (length limit : Nat)
  /-- A second option of its kind. -/
  | doubleOption (kind : OptionKind)
  /-- A qualified name that is not the name of a type of the kind in question. -/
  | unknownType (text : String)
  /-- A cast to a type that is not derived from the one referred to. -/
  | incompatibleCast (cast referenced : StructuredType)
  /-- A name that is no member of its type. -/
  | propertyNotInType (name : String) (owner : StructuredType)
  /-- A name that is no navigation property of its type, where only one of these will do. -/
  | navigationNotInType (name : String) (owner : StructuredType)
  /-- A navigation property to many entities within an expression. -/
  | collectionInExpression (name : String)
  /-- A selected path that goes on behind a navigation property. -/
  | navigationInSelect (name : String)
  /-- An operand or argument of the wrong class. -/
  | operandType (operator : String) (operand : Expression) (expected : String)
      (found : ExpressionType)
  /-- Two operands that cannot be compared. -/
  | notComparable (operator : BinaryOperator) (left right : ExpressionType)
  /-- Too few or too many arguments. -/
  | argumentCount (method : Method) (found : Nat)
  /-- A filter that cannot be true or false. -/
  | filterNotBoolean (found : ExpressionType)
  /-- A sort key that is no single primitive value. -/
  | keyNotPrimitive (key : Expression)
  /-- A call of a method that does not exist. -/
  | unknownMethod (name : String)
  /-- More expansions inside one another than allowed. -/
  | expandTooDeep (limit : Nat)
  /-- More levels of an expression inside one another than allowed. -/
  | expressionTooDeep (limit : Nat)
  /-- A cause that the library does not know, with its wording. -/
  | custom (key : FaultKey) (message : String) (parameters : List String)
deriving DecidableEq

namespace Problem

def key : Problem → FaultKey
  | unexpected _ _ => .unexpectedToken
  | invalidText _ => .invalidCharacter
  | trailing _ _ => .trailingTokens
  | optionExpected _ | integerOutOfRange _ | levelsAtTop => .grammar
  | unknownOption _ => .unknownOption
  | wrongValue _ _ => .wrongValue
  | queryTooLong _ _ => .queryTooLong
  | doubleOption _ => .doubleOption
  | unknownType _ => .unknownType
  | incompatibleCast _ _ => .incompatibleCast
  | propertyNotInType _ _ | navigationNotInType _ _ => .propertyNotInType
  | collectionInExpression _ | navigationInSelect _ => .navigationNotAllowed
  | operandType _ _ _ _ | notComparable _ _ _ | argumentCount _ _ | filterNotBoolean _
  | keyNotPrimitive _ => .typeMismatch
  | unknownMethod _ => .unknownMethod
  | expandTooDeep _ => .expandTooDeep
  | expressionTooDeep _ => .expressionTooDeep
  | custom key _ _ => key

def message : Problem → String
  | unexpected expected found => "expected " ++ expected ++ ", found " ++ found.describe
  | invalidText text => "invalid character '" ++ text ++ "'"
  | trailing option found =>
    "Unexpected " ++ found.describe ++ " after the value of '" ++ option.keyword ++ "'."
  | optionExpected _ => "Allowed query option expected."
  | integerOutOfRange text => "Integer literal " ++ text ++ " is out of range."
  | levelsAtTop => "System query option '$levels' is allowed only inside $expand."
  | unknownOption name => "Unknown system query option '" ++ name ++ "'."
  | wrongValue option text =>
    "Wrong value for system query option '" ++ option ++ "': '" ++ text ++ "'."
  | queryTooLong length limit =>
    "Query string of " ++ toString length ++ " bytes exceeds the limit of " ++ toString limit ++
      " bytes."
  | doubleOption kind => "Double system query option '" ++ kind.keyword ++ "'."
  | unknownType text => "Type '" ++ text ++ "' not found."
  | incompatibleCast cast referenced =>
    "The type cast '" ++ cast.print ++ "' is not compatible with '" ++ referenced.print ++ "'."
  | propertyNotInType name owner =>
    "Property '" ++ name ++ "' not found in type '" ++ owner.print ++ "'."
  | navigationNotInType name owner =>
    "Navigation Property '" ++ name ++ "' not found in type '" ++ owner.print ++ "'."
  | collectionInExpression name =>
    "Collection-valued navigation property '" ++ name ++ "' cannot be used in an expression."
  | navigationInSelect name => "Navigation property '" ++ name ++ "' must end a $select path."
  | operandType operator operand expected found =>
    "Operand '" ++ operand.print ++ "' of '" ++ operator ++ "' must be of " ++ expected ++
      ", found " ++ found.describe ++ "."
  | notComparable operator left right =>
    "Operands of '" ++ operator.keyword ++ "' are not comparable: " ++ left.describe ++ " and " ++
      right.describe ++ "."
  | argumentCount method found =>
    "Method '" ++ method.name ++ "' expects " ++ method.signature.describeCount ++
      " arguments, found " ++ toString found ++ "."
  | filterNotBoolean found =>
    "The $filter expression must be of type " ++ ExpressionType.boolean.describe ++ ", found " ++
      found.describe ++ "."
  | keyNotPrimitive key =>
    "Cannot order by '" ++ key.print ++ "': it is not a primitive value."
  | unknownMethod name => "Unknown method '" ++ name ++ "'."
  | expandTooDeep limit =>
    "$expand is nested deeper than the allowed " ++ toString limit ++ " levels."
  | expressionTooDeep limit =>
    "Expression is nested deeper than the allowed " ++ toString limit ++ " levels."
  | custom _ message _ => message

/-- The names and numbers that a message was built from, for callers that word it anew. -/
def parameters : Problem → List String
  | unexpected expected found => [expected, found.text]
  | invalidText text => [text]
  | trailing option found => [option.keyword, found.text]
  | optionExpected found => [found.text]
  | integerOutOfRange _ => []
  | levelsAtTop => [OptionKind.levels.keyword]
  | unknownOption name => [name]
  | wrongValue option text => [option, text]
  | queryTooLong _ limit => [toString limit]
  | doubleOption kind => [kind.keyword]
  | unknownType text => [text]
  | incompatibleCast cast _ => [cast.print]
  | propertyNotInType name owner => [owner.print, name]
  | navigationNotInType name owner => [owner.print, name]
  | collectionInExpression name => [name]
  | navigationInSelect name => [name]
  | operandType operator _ _ _ => [operator]
  | notComparable operator _ _ => [operator.keyword]
  | argumentCount method _ => [method.name]
  | filterNotBoolean _ => [OptionKind.filter.keyword]
  | keyNotPrimitive _ => [OptionKind.orderBy.keyword]
  | unknownMethod name => [name]
  | expandTooDeep limit => [toString limit]
  | expressionTooDeep limit => [toString limit]
  | custom _ _ parameters => parameters

end Problem

end ODataOptions
