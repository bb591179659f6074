import ODataOptions.Token.Basic

/-!
# Cursors

A cursor stands between the tokens that have been consumed and those ahead.  It never moves past
the token that marks the end of the input, and behind the last token it reads as if such a token
stood there.  It also counts the levels of an expression that are open around it.
-/

namespace ODataOptions

/-- A place in a list of tokens. -/
structure Cursor where
  /-- The tokens that have been consumed, the latest first. -/
  consumed : List Token := []
  /-- The tokens from the current one on. -/
  ahead : List Token
  /-- The number of open levels. -/
  depth : Nat := 0
deriving DecidableEq, Inhabited

namespace Cursor

def ofTokens (tokens : List Token) : Cursor := { ahead := tokens }

/-- The number of tokens that have been consumed. -/
def position (cursor : Cursor) : Nat := cursor.consumed.length

/-- Where the last token of all stops. -/
def stop (cursor : Cursor) : Nat :=
  match cursor.ahead.getLast? <|> cursor.consumed.head? with
  | some token => token.span.stop
  | none => 0

def current (cursor : Cursor) : Token :=
  match cursor.ahead with
  | token :: _ => token
  | [] => .endOfInput cursor.stop

/-- The token behind the one at the cursor. -/
def peek (cursor : Cursor) : Token :=
  match cursor.ahead with
  | _ :: token :: _ => token
  | _ => .endOfInput cursor.stop

/-- The token that was consumed last. -/
def previous? (cursor : Cursor) : Option Token := cursor.consumed.head?

/-- The text of the token that was consumed last. -/
def lexeme (cursor : Cursor) : String := (cursor.previous?.map Token.text).getD ""

/-- The place of the token that was consumed last, or else of the current one. -/
def previousSpan (cursor : Cursor) : Span :=
  (cursor.previous?.map Token.span).getD cursor.current.span

def atEnd (cursor : Cursor) : Bool := cursor.current.kind = .endOfInput

/-- The cursor behind the current token.  At the end of the input it stays. -/
def advance (cursor : Cursor) : Cursor :=
  match cursor.ahead with
  | token :: rest =>
    if token.kind = .endOfInput then cursor
    else { cursor with consumed := token :: cursor.consumed, ahead := rest }
  | [] => cursor

def tokens (cursor : Cursor) : List Token := cursor.consumed.reverse ++ cursor.ahead

@[simp]
theorem tokens_advance (cursor : Cursor) : cursor.advance.tokens = cursor.tokens := by
  unfold advance
  split
  · split
    · rfl
    · next h _ => simp [tokens, h]
  · rfl

@[simp]
theorem depth_advance (cursor : Cursor) : cursor.advance.depth = cursor.depth := by
  unfold advance
  split
  · split <;> rfl
  · rfl

end Cursor

end ODataOptions
