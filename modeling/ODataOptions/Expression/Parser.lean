import ODataOptions.Expression.Scope
import ODataOptions.Parser.Basic
import ODataOptions.Text.Numeral
import ODataOptions.Text.Quoted

/-!
# Parsing of expressions

The operators from the loosest to the tightest are `or`, `and`, `not`, the comparisons, the
additive and the multiplicative ones; the binary ones take their left operand first, and comparisons
do not follow one another.  The class of each part is determined as it is built, so an operand that
does not fit is reported by the operator or method that it was given to.

Parentheses, negations and method calls open a level, and the number of levels is limited.
-/

namespace ODataOptions

/-- An expression with the class of its value and its place in the text. -/
structure TypedExpression where
  expression : Expression
  type : ExpressionType
  span : Span
deriving DecidableEq, Inhabited

/-! ## Checking of operands -/

namespace TypedExpression

def require (operand : TypedExpression) (operator : String) (expected : ExpressionType) :
    Except Fault Unit :=
  if operand.type.accepts expected then .ok ()
  else .error
    { problem := .operandType operator operand.expression expected.describe operand.type
      span := operand.span }

def requirePrimitive (operand : TypedExpression) (operator : String) : Except Fault Unit :=
  if operand.type = .structured then .error
    { problem := .operandType operator operand.expression "a primitive type" operand.type
      span := operand.span }
  else .ok ()

def requireComparable (operator : BinaryOperator) (left right : TypedExpression) :
    Except Fault Unit :=
  if left.type.comparable right.type then .ok ()
  else .error
    { problem := .notComparable operator left.type right.type
      span := .cover left.span right.span }

/-- The class of an operation, if the operands fit the operator. -/
def operationType (operator : BinaryOperator) (left right : TypedExpression) :
    Except Fault ExpressionType :=
  match operator with
  | .or | .and => do
    left.require operator.keyword .boolean
    right.require operator.keyword .boolean
    return .boolean
  | .eq | .ne => do
    requireComparable operator left right
    return .boolean
  | .gt | .ge | .lt | .le => do
    requireComparable operator left right
    left.requirePrimitive operator.keyword
    right.requirePrimitive operator.keyword
    return .boolean
  | .add | .sub | .mul | .div | .mod => do
    left.require operator.keyword .numeric
    right.require operator.keyword .numeric
    return .numeric

def binary (operator : BinaryOperator) (left right : TypedExpression) :
    Except Fault TypedExpression := do
  let type ← operationType operator left right
  return ⟨.binary operator left.expression right.expression, type, .cover left.span right.span⟩

def requireArguments (method : Method) : List TypedExpression → List ExpressionType →
    Except Fault Unit
  | argument :: arguments, expected :: parameters => do
    argument.require method.name expected
    requireArguments method arguments parameters
  | _, _ => .ok ()

/-- The call of a method that stands at `span`, if the arguments fit its signature. -/
def call (method : Method) (arguments : List TypedExpression) (span : Span) :
    Except Fault TypedExpression := do
  if method.signature.admits arguments.length then
    requireArguments method arguments method.signature.parameters
    return ⟨.call method (arguments.map expression), method.signature.result, span⟩
  else
    throw { problem := .argumentCount method arguments.length, span }

end TypedExpression

/-! ## Literals and members -/

namespace Literal

/-- The integers that a literal can stand for are those of 64 bits. -/
def inRange (value : Int) : Bool :=
  Int64.minValue.toInt ≤ value && value ≤ Int64.maxValue.toInt

/-- The literal that a token of one of the literal kinds stands for. -/
def ofToken (token : Token) : Except Fault Literal :=
  match token.kind with
  | .integer =>
    match (Text.integer? token.text).filter inRange with
    | some value => .ok (.integer value)
    | none => .error { problem := .integerOutOfRange token.text, span := token.span }
  | .decimal => .ok (.decimal token.text)
  | .date => .ok (.date token.text)
  | .dateTimeOffset => .ok (.dateTimeOffset token.text)
  | .guid => .ok (.guid token.text)
  | _ =>
    .ok (.string (String.ofList
      (Text.Doubled.decode '\'' (Text.unquoted '\'' token.text.toList))))

end Literal

/-- The parts of the grammar of expressions that its other parts refer back to. -/
structure Expression.Grammar where
  /-- A whole expression. -/
  whole : Parser TypedExpression
  /-- An operand of `and` or of `not`. -/
  operand : Parser TypedExpression

namespace Expression.Grammar

open ODataOptions.Parser

/-- The type at which a path may go on behind a member: the path cannot go through a collection. -/
def next? (member : Member) : Option StructuredType :=
  if member.collection then none else member.type?

/-- A name, which must be that of a member of `owner` with at most one value or that of a
structural property. -/
def memberSegment (scope : Scope) (owner : StructuredType) :
    Parser (Member × Option StructuredType) := do
  let token ← expect .identifier
  match scope.schema.property? owner token.text with
  | some property => continued (.property property)
  | none =>
    match scope.schema.navigation? owner token.text with
    | some navigation =>
      if navigation.collection then
        throw { problem := .collectionInExpression token.text, span := token.span }
      else continued (.navigation navigation)
    | none => throw { problem := .propertyNotInType token.text owner, span := token.span }
where
  /-- The member, and the type at which the path goes on if a slash follows. -/
  continued (member : Member) : Parser (Member × Option StructuredType) := do
    match next? member with
    | some type => return (member, if ← accept .slash then some type else none)
    | none => return (member, none)

def memberPath (scope : Scope) (owner : StructuredType) : Parser TypedExpression := do
  let first ← current
  let path ← unfold (memberSegment scope) owner
  let type := (path.getLast?.map ExpressionType.ofMember).getD .structured
  return ⟨.member path, type, .cover first.span (← get).previousSpan⟩

/-- A literal that is a token of its own kind. -/
def literal : Parser TypedExpression := do
  let token ← next
  return ⟨.literal (← ofExcept (Literal.ofToken token)), .ofToken token, token.span⟩

/-- A parameter alias, named without the signs before its name. -/
def parameter (scope : Scope) : Parser TypedExpression := do
  let token ← next
  let name := String.ofList (token.text.toList.dropWhile (· = '@'))
  return ⟨.parameter name, scope.parameterType name, token.span⟩

/-! ## Operations -/

section

variable (scope : Scope) (owner : StructuredType) (inner : Grammar)

/-- An expression in parentheses, whose place includes these. -/
def group : Parser TypedExpression := do
  let first ← expect .openParen
  let content ← inner.whole
  let last ← expect .closeParen
  return { content with span := .cover first.span last.span }

def arguments : Parser (List TypedExpression) := do
  if (← current).isA .closeParen then pure [] else separated inner.whole .comma

def methodCall : Parser TypedExpression := do
  let name ← current
  match Method.ofName? name.text with
  | none => throw { problem := .unknownMethod name.text, span := name.span }
  | some method =>
    let _ ← expect .identifier
    let _ ← expect .openParen
    let arguments ← arguments inner
    let last ← expect .closeParen
    ofExcept (TypedExpression.call method arguments (.cover name.span last.span))

/-- An operand that begins with an identifier: `null`, a Boolean literal, a call or a member path. -/
def named : Parser TypedExpression := do
  let token ← current
  if ← accept .null then
    return ⟨.literal .null, .untyped, token.span⟩
  else if ← accept .boolean then
    return ⟨.literal (.boolean (Text.sameWord token.text "true")), .boolean, token.span⟩
  else if (← get).peek.kind = .openParen then
    nested scope.limits.expressionDepth (methodCall inner)
  else
    memberPath scope owner

def primary : Parser TypedExpression := do
  match (← current).kind with
  | .openParen => nested scope.limits.expressionDepth (group inner)
  | .integer | .decimal | .string | .date | .dateTimeOffset | .guid => literal
  | .parameterAlias => parameter scope
  | .identifier => named scope owner inner
  | _ => unexpected "expression"

/-- Operands with operators of one precedence between them. -/
def operations (operators : List BinaryOperator) (operand : Parser TypedExpression) :
    Parser TypedExpression :=
  chain operand (oneOfWords BinaryOperator.keyword operators) TypedExpression.binary

def multiplicative : Parser TypedExpression :=
  operations [.mul, .div, .mod] (primary scope owner inner)

def additive : Parser TypedExpression :=
  operations [.add, .sub] (multiplicative scope owner inner)

/-- One comparison, or none. -/
def comparison : Parser TypedExpression := do
  let left ← additive scope owner inner
  match ← oneOfWords BinaryOperator.keyword [.eq, .ne, .gt, .ge, .lt, .le] with
  | some operator => ofExcept (TypedExpression.binary operator left (← additive scope owner inner))
  | none => pure left

def negated : Parser TypedExpression := do
  let word ← expect .identifier
  let operand ← inner.operand
  ofExcept (operand.require "not" .boolean)
  return ⟨.not operand.expression, .boolean, .cover word.span operand.span⟩

def negation : Parser TypedExpression := do
  if (← current).isWord "not" then nested scope.limits.expressionDepth (negated inner)
  else comparison scope owner inner

def conjunction : Parser TypedExpression := operations [.and] (negation scope owner inner)

def disjunction : Parser TypedExpression := operations [.or] (conjunction scope owner inner)

end

/-- The grammar where at most `levels` levels may be opened inside one another. -/
def ofLevels (scope : Scope) (owner : StructuredType) : Nat → Grammar
  | 0 =>
    let tooDeep := failHere (.expressionTooDeep scope.limits.expressionDepth)
    ⟨tooDeep, tooDeep⟩
  | levels + 1 =>
    ⟨fun cursor => disjunction scope owner (ofLevels scope owner levels) cursor,
     fun cursor => negation scope owner (ofLevels scope owner levels) cursor⟩

end Expression.Grammar

def Expression.parse (scope : Scope) (owner : StructuredType) : Parser TypedExpression :=
  (Grammar.ofLevels scope owner (scope.limits.expressionDepth + 1)).whole

end ODataOptions
