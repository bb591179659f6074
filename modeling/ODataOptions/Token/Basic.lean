import ODataOptions.Span
import ODataOptions.SystemOption.Kind

/-!
# Tokens

The words and marks of an option value.  Three kinds are contextual: `max`, the Boolean literals
and `null` are identifiers to the lexer, and are told from other identifiers by their text only
where a parser asks for them.  So they stay usable as the names of properties.
-/

namespace ODataOptions

inductive TokenKind
  /-- The keyword of a system query option. -/
  | option (kind : OptionKind)
  | ref
  | max
  | boolean
  | null
  | identifier
  | qualifiedName
  | parameterAlias
  | integer
  | decimal
  | string
  | date
  | dateTimeOffset
  | guid
  | quotedPhrase
  | star
  | slash
  | openParen
  | closeParen
  | comma
  | semicolon
  | equals
  | endOfInput
deriving DecidableEq, Repr, Inhabited

namespace TokenKind

def describe : TokenKind → String
  | option kind => kind.keyword
  | ref => "$ref"
  | max => "max"
  | boolean => "boolean literal"
  | null => "null"
  | identifier => "identifier"
  | qualifiedName => "qualified name"
  | parameterAlias => "parameter alias"
  | integer => "integer literal"
  | decimal => "decimal literal"
  | string => "string literal"
  | date => "date literal"
  | dateTimeOffset => "date-time literal"
  | guid => "guid literal"
  | quotedPhrase => "quoted phrase"
  | star => "*"
  | slash => "/"
  | openParen => "("
  | closeParen => ")"
  | comma => ","
  | semicolon => ";"
  | equals => "="
  | endOfInput => "<EOF>"

/-- The identifiers that a contextual kind stands for, and `none` for the other kinds. -/
def contextualWords? : TokenKind → Option (List String)
  | max => some ["max"]
  | boolean => some ["true", "false"]
  | null => some ["null"]
  | _ => none

end TokenKind

/-- A token: its kind, its text as written and where it stands. -/
structure Token where
  kind : TokenKind
  text : String
  span : Span
deriving DecidableEq, Repr, Inhabited

namespace Token

def endOfInput (length : Nat) : Token := ⟨.endOfInput, "", .point length⟩

/-- Whether the token can be taken for one of the given kind.  A contextual kind is matched by the
identifiers it stands for, in any case, and by nothing else. -/
def isA (token : Token) (kind : TokenKind) : Bool :=
  match kind.contextualWords? with
  | some words => token.kind = .identifier && words.any (Text.sameWord token.text)
  | none => token.kind = kind

/-- Whether the token is an identifier of exactly that text. -/
def isWord (token : Token) (word : String) : Bool :=
  token.kind = .identifier && token.text = word

def describe (token : Token) : String :=
  if token.kind = .endOfInput then "end of input" else "'" ++ token.text ++ "'"

end Token

end ODataOptions
