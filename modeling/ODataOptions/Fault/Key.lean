/-!
# Keys of faults

Every fault has a key that stays the same when its wording changes.  A key belongs to one of two
classes: the text does not have the form of a query, or it has the form but names something that the
schema or the context does not admit.
-/

namespace ODataOptions

inductive FaultClass
  | form
  | meaning
deriving DecidableEq, Repr, Inhabited

namespace FaultClass

def name : FaultClass → String
  | form => "syntax"
  | meaning => "semantic"

end FaultClass

inductive FaultKey
  /-- The text breaks a rule of the grammar in some other way than those below. -/
  | grammar
  /-- A token was required and another one was found. -/
  | unexpectedToken
  /-- A stretch of text is no token. -/
  | invalidCharacter
  /-- Tokens are left over behind the value of an option. -/
  | trailingTokens
  /-- An option begins with `$` but is no system query option. -/
  | unknownOption
  /-- A number is out of range for its option. -/
  | wrongValue
  /-- The query string is longer than allowed. -/
  | queryTooLong
  /-- A system query option is given twice. -/
  | doubleOption
  /-- A qualified name names no type. -/
  | unknownType
  /-- A type cast leads to a type that is not derived from the expected one. -/
  | incompatibleCast
  /-- The type has no such property. -/
  | propertyNotInType
  /-- A navigation property stands where it must not, or goes on where it must end. -/
  | navigationNotAllowed
  /-- Operands do not fit their operator or method. -/
  | typeMismatch
  /-- There is no method of that name. -/
  | unknownMethod
  /-- Expansions are nested deeper than allowed. -/
  | expandTooDeep
  /-- An expression is nested deeper than allowed. -/
  | expressionTooDeep
deriving DecidableEq, Repr, Inhabited

namespace FaultKey

def faultClass : FaultKey → FaultClass
  | grammar | unexpectedToken | invalidCharacter | trailingTokens | unknownOption | wrongValue
  | queryTooLong => .form
  | doubleOption | unknownType | incompatibleCast | propertyNotInType | navigationNotAllowed
  | typeMismatch | unknownMethod | expandTooDeep | expressionTooDeep => .meaning

def name : FaultKey → String
  | grammar => "syntax"
  | unexpectedToken => "unexpected_token"
  | invalidCharacter => "invalid_character"
  | trailingTokens => "trailing_tokens"
  | unknownOption => "unknown_system_query_option"
  | wrongValue => "wrong_value_for_system_query_option"
  | queryTooLong => "query_too_long"
  | doubleOption => "double_system_query_option"
  | unknownType => "unknown_part"
  | incompatibleCast => "incompatible_type_filter"
  | propertyNotInType => "property_not_in_type"
  | navigationNotAllowed => "navigation_not_allowed"
  | typeMismatch => "type_mismatch"
  | unknownMethod => "unknown_method"
  | expandTooDeep => "max_expand_depth_exceeded"
  | expressionTooDeep => "max_expression_depth_exceeded"

/-- The stable code of a key: its class and its name. -/
def code (key : FaultKey) : String := key.faultClass.name ++ "::" ++ key.name

end FaultKey

end ODataOptions
