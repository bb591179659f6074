import ODataOptions.Fault.Basic
import ODataOptions.Parser.Cursor

/-!
# Parsers

A parser moves a cursor and yields a value or a fault.  The cursor outlives a fault, so a caller can
tell how far the parser came.  Tokens are consumed in one way only, by `Parser.takeIf`.
-/

namespace ODataOptions

/-- A parser that yields an `α` or a fault, and the cursor where it stopped. -/
abbrev Parser := EStateM Fault Cursor

namespace Parser

variable {α β σ : Type}

def onTokens (parser : Parser α) (tokens : List Token) : Except Fault α :=
  match parser.run (.ofTokens tokens) with
  | .ok value _ => .ok value
  | .error fault _ => .error fault

def current : Parser Token := return (← get).current

/-- Consumes the current token if it passes the test. -/
def takeIf (test : Token → Bool) : Parser (Option Token) := fun cursor =>
  if test cursor.current then .ok (some cursor.current) cursor.advance else .ok none cursor

def next : Parser Token := do
  let token ← current
  let _ ← takeIf fun _ => true
  return token

/-- Consumes the current token if it is of that kind. -/
def take? (kind : TokenKind) : Parser (Option Token) := takeIf (·.isA kind)

/-- Consumes the current token if it is of that kind, and tells whether it did. -/
def accept (kind : TokenKind) : Parser Bool := return (← take? kind).isSome

/-- Consumes the current token if it is an identifier of exactly that text, and tells whether it
did. -/
def acceptWord (word : String) : Parser Bool := return (← takeIf (·.isWord word)).isSome

def failHere (problem : Problem) : Parser α := do
  throw { problem, span := (← current).span }

def unexpected (expected : String) : Parser α := do
  failHere (.unexpected expected (← current))

def expect (kind : TokenKind) : Parser Token := do
  match ← take? kind with
  | some token => pure token
  | none => unexpected kind.describe

/-- Runs a parser with one more level open, and closes the level whatever the outcome.  Where
`limit` levels are open already, it fails at the current token instead. -/
def nested (limit : Nat) (parser : Parser α) : Parser α := fun cursor =>
  if limit ≤ cursor.depth then failHere (.expressionTooDeep limit) cursor
  else
    match parser { cursor with depth := cursor.depth + 1 } with
    | .ok value rest => .ok value { rest with depth := rest.depth - 1 }
    | .error fault rest => .error fault { rest with depth := rest.depth - 1 }

/-! ## Repetition

A repetition goes on only behind a token that it has consumed.  So it takes no more rounds than
there are tokens ahead, and one more to see that it is over. -/

def iterateUpTo (step : σ → Parser (Option σ)) : Nat → σ → Parser σ
  | 0, state => pure state
  | rounds + 1, state => do
    match ← step state with
    | some next => iterateUpTo step rounds next
    | none => pure state

/-- Takes steps from one state to the next until a step is declined. -/
def iterate (step : σ → Parser (Option σ)) (state : σ) : Parser σ := do
  iterateUpTo step ((← get).ahead.length + 1) state

def unfoldUpTo (step : σ → Parser (α × Option σ)) : Nat → σ → Parser (List α)
  | 0, _ => pure []
  | rounds + 1, state => do
    let (value, next?) ← step state
    match next? with
    | some next => return value :: (← unfoldUpTo step rounds next)
    | none => pure [value]

def unfold (step : σ → Parser (α × Option σ)) (state : σ) : Parser (List α) := do
  unfoldUpTo step ((← get).ahead.length + 1) state

/-- One or more items with a separator between them. -/
def separated (item : Parser α) (separator : TokenKind) : Parser (List α) :=
  unfold (fun _ => return (← item, if ← accept separator then some () else none)) ()

/-- Takes a step behind a separator, if there is one. -/
def stepBehind? (step : σ → Parser σ) (separator : TokenKind) (state : σ) : Parser (Option σ) := do
  if ← accept separator then return some (← step state) else return none

/-- One or more steps with a separator between them, each of which goes on from the state that the one
before has come to. -/
def separatedFrom (step : σ → Parser σ) (separator : TokenKind) (state : σ) : Parser σ := do
  iterate (stepBehind? step separator) (← step state)

/-- Operands with operators between them, combined from the left. -/
def chain (operand : Parser α) (operator? : Parser (Option β))
    (combine : β → α → α → Except Fault α) : Parser α := do
  iterate
    (fun left => do
      match ← operator? with
      | some operator => return some (← ofExcept (combine operator left (← operand)))
      | none => pure none)
    (← operand)

/-- The first of some words that the current token is, which is consumed, with what the word stands
for. -/
def oneOfWords (word : α → String) : List α → Parser (Option α)
  | [] => pure none
  | meaning :: meanings => do
    if ← acceptWord (word meaning) then pure (some meaning) else oneOfWords word meanings

end Parser

end ODataOptions
