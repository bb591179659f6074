import ODataOptions.Parser.Basic
import ODataOptions.Token.Lexer

/-!
# Parsing of texts

A parser is run on the tokens of a text.  Text that is no token is a fault that comes before all
others, and the value of an option must take up the whole text.
-/

namespace ODataOptions

/-- A stretch of text that is no token, as a fault. -/
def Fault.ofInvalid (text : String) (span : Span) : Fault := { problem := .invalidText text, span }

def tokensOrFault (source : String) : Except Fault (List Token) :=
  match invalidParts source with
  | (text, span) :: _ => .error (.ofInvalid text span)
  | [] => .ok (tokens source)

namespace Parser

variable {α : Type}

/-- Parses the value of an option, which must go on up to the end of the input. -/
def complete (option : OptionKind) (parser : Parser α) : Parser α := do
  let value ← parser
  let token ← current
  if token.kind = .endOfInput then return value
  else failHere (.trailing option token)

def onText (parser : Parser α) (source : String) : Except Fault α := do
  parser.onTokens (← tokensOrFault source)

end Parser

end ODataOptions
