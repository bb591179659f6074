import ODataOptions.Limits
import ODataOptions.Parser.Basic
import ODataOptions.Search.Basic

/-!
# Parsing of search expressions

`NOT` binds tighter than `AND`, and `AND` binds tighter than `OR`.  Operands next to one another are
joined by `AND` even without the word.  Parentheses and negations open a level, and the number of
levels is limited.
-/

namespace ODataOptions

namespace Token

/-- Whether a token is a word to search for: any literal but a string, and any identifier but the
operators. -/
def isSearchWord (token : Token) : Bool :=
  match token.kind with
  | .identifier => token.text ∉ ["AND", "OR", "NOT"]
  | .integer | .decimal | .date | .dateTimeOffset | .guid => true
  | _ => false

/-- Whether an operand of a search can begin with the token. -/
def startsSearchOperand (token : Token) : Bool :=
  token.isSearchWord || token.isWord "NOT" || token.isA .openParen || token.isA .quotedPhrase

end Token

/-- The parts of the grammar of search expressions that its other parts refer back to. -/
structure SearchExpression.Grammar where
  /-- A whole search expression. -/
  whole : Parser SearchExpression
  /-- An operand of `AND` or of `NOT`. -/
  operand : Parser SearchExpression

namespace SearchExpression.Grammar

open ODataOptions.Parser

section

variable (limits : Limits) (inner : Grammar)

def group : Parser SearchExpression := do
  let _ ← expect .openParen
  let content ← inner.whole
  let _ ← expect .closeParen
  return content

def phraseText (token : Token) : String :=
  String.ofList (Text.Escaped.decode (Text.unquoted '"' token.text.toList))

def primary : Parser SearchExpression := do
  if (← current).isA .openParen then nested limits.expressionDepth (group inner)
  else
    match ← take? .quotedPhrase with
    | some token => return .phrase (phraseText token)
    | none =>
      match ← takeIf Token.isSearchWord with
      | some token => return .term token.text
      | none => unexpected "search term"

def negated : Parser SearchExpression := do
  let _ ← expect .identifier
  return .not (← inner.operand)

def negation : Parser SearchExpression := do
  if (← current).isWord "NOT" then nested limits.expressionDepth (negated inner)
  else primary limits inner

/-- The word `AND`, or nothing where another operand begins. -/
def conjunctionSign : Parser (Option Unit) := do
  if ← acceptWord "AND" then return some ()
  else return if (← current).startsSearchOperand then some () else none

def disjunctionSign : Parser (Option Unit) := do
  return if ← acceptWord "OR" then some () else none

def conjunction : Parser SearchExpression :=
  chain (negation limits inner) conjunctionSign fun _ left right => .ok (.and left right)

def disjunction : Parser SearchExpression :=
  chain (conjunction limits inner) disjunctionSign fun _ left right => .ok (.or left right)

end

/-- The grammar where at most `levels` levels may be opened inside one another. -/
def ofLevels (limits : Limits) : Nat → Grammar
  | 0 =>
    let tooDeep := failHere (.expressionTooDeep limits.expressionDepth)
    ⟨tooDeep, tooDeep⟩
  | levels + 1 =>
    ⟨fun cursor => disjunction limits (ofLevels limits levels) cursor,
     fun cursor => negation limits (ofLevels limits levels) cursor⟩

end SearchExpression.Grammar

def SearchExpression.parse (limits : Limits) : Parser SearchExpression :=
  (Grammar.ofLevels limits (limits.expressionDepth + 1)).whole

end ODataOptions
