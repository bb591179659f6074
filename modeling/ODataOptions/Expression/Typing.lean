import ODataOptions.Expression.Basic
import ODataOptions.Token.Basic

/-!
# Types of expressions

What an operand or an argument must be.  The many primitive types fall into a few classes here.  An
expression whose type is not known before the request runs, such as `null` or a parameter alias
without a literal value, fits everywhere.
-/

namespace ODataOptions

inductive ExpressionType
  | boolean
  | numeric
  | string
  | temporal
  | guid
  | structured
  | untyped
deriving DecidableEq, Repr, Inhabited

namespace ExpressionType

def all : List ExpressionType :=
  [boolean, numeric, string, temporal, guid, structured, untyped]

def describe : ExpressionType → String
  | boolean => "Edm.Boolean"
  | numeric => "a numeric type"
  | string => "Edm.String"
  | temporal => "a date type"
  | guid => "Edm.Guid"
  | structured => "a structured type"
  | untyped => "an untyped value"

def ofPrimitive : PrimitiveKind → ExpressionType
  | .boolean => boolean
  | .string => string
  | .guid => guid
  | .date | .dateTimeOffset => temporal
  | .byte | .int16 | .int32 | .int64 | .decimal | .double => numeric

/-- The class of a member.  Collections count as structured, whatever they hold. -/
def ofMember : Member → ExpressionType
  | .property target =>
    match target.type with
    | .primitive kind => if target.collection then structured else ofPrimitive kind
    | .complex _ => structured
  | .navigation _ => structured

/-- The class of the literal that a token is, where tokens that are no literals have no known
class. -/
def ofToken (token : Token) : ExpressionType :=
  match token.kind with
  | .integer | .decimal => numeric
  | .string => string
  | .date | .dateTimeOffset => temporal
  | .guid => guid
  | _ => if token.isA .boolean then boolean else untyped

/-- Whether a value of this class can be given where one of the expected class is asked for. -/
def accepts (type expected : ExpressionType) : Bool := type = expected || type = untyped

def comparable (left right : ExpressionType) : Bool :=
  left = untyped || right = untyped || (left = right && left ≠ structured)

end ExpressionType

/-- The arguments that a method takes and the class of its result.  The last parameters may be left
out as long as `required` arguments are given. -/
structure Signature where
  parameters : List ExpressionType
  required : Nat := parameters.length
  result : ExpressionType
deriving DecidableEq, Repr

namespace Signature

/-- Whether a method of this signature can be called with `count` arguments. -/
def admits (signature : Signature) (count : Nat) : Bool :=
  signature.required ≤ count && count ≤ signature.parameters.length

def describeCount (signature : Signature) : String :=
  if signature.required = signature.parameters.length then toString signature.required
  else toString signature.required ++ " to " ++ toString signature.parameters.length

end Signature

namespace Method

def signature : Method → Signature
  | .contains | .startsWith | .endsWith =>
    { parameters := [.string, .string], result := .boolean }
  | .length => { parameters := [.string], result := .numeric }
  | .indexOf => { parameters := [.string, .string], result := .numeric }
  | .substring => { parameters := [.string, .numeric, .numeric], required := 2, result := .string }
  | .toLower | .toUpper | .trim => { parameters := [.string], result := .string }
  | .concat => { parameters := [.string, .string], result := .string }
  | .round | .floor | .ceiling => { parameters := [.numeric], result := .numeric }
  | .year | .month | .day => { parameters := [.temporal], result := .numeric }

end Method

end ODataOptions
