import ODataOptions.Token.Basic
import ODataOptions.Token.Pattern.Basic

/-!
# Tokens of a text

A text is cut into lexemes from left to right.  Blanks are passed over; elsewhere the longest
beginning that is a token of some kind is taken.  Text that begins no token is kept as an invalid
lexeme, and cutting goes on behind it, so a text yields all its tokens and all its faults.
-/

namespace ODataOptions

/-! ## The kinds of tokens as patterns -/

namespace TokenPattern

open Pattern

def digit : Pattern := oneOf Char.isDigit

def hexDigit : Pattern :=
  oneOf fun c => c.isDigit || ('a' ≤ c && c ≤ 'f') || ('A' ≤ c && c ≤ 'F')

/-- A name: letters, digits and underscores, not beginning with a digit. -/
def name : Pattern :=
  seq (oneOf fun c => c.isAlpha || c = '_') (many (oneOf fun c => c.isAlphanum || c = '_'))

def qualifiedName : Pattern := seq name (many1 (seq (char '.') name))

def parameterAlias : Pattern := seq (char '@') name

def integer : Pattern := seq (optional (char '-')) (many1 digit)

/-- A fraction with digits on both sides of the point, and an exponent if wanted. -/
def decimal : Pattern :=
  inOrder [integer, char '.', many1 digit,
    optional (inOrder [letter 'e', optional (either (char '+') (char '-')), many1 digit])]

/-- Text in quotes, where a quote within it is doubled. -/
def string : Pattern :=
  inOrder [char '\'', many (either (oneOf (· ≠ '\'')) (seq (char '\'') (char '\''))), char '\'']

/-- A phrase in double quotes as far as it is open: a backslash takes the character behind it along,
which cannot be a line break. -/
def openPhrase : Pattern :=
  seq (char '"')
    (many (either (oneOf fun c => c ≠ '"' && c ≠ '\\') (seq (char '\\') (oneOf (· ≠ '\n')))))

def quotedPhrase : Pattern := seq openPhrase (char '"')

def date : Pattern :=
  inOrder [times 4 digit, char '-', times 2 digit, char '-', times 2 digit]

def dateMinutes : Pattern :=
  inOrder [date, char 'T', times 2 digit, char ':', times 2 digit]

def fraction : Pattern := seq (char '.') (many1 digit)

def dateFraction : Pattern := inOrder [dateMinutes, char ':', times 2 digit, fraction]

/-- The distance of the local time from universal time. -/
def offset : Pattern :=
  either (char 'Z')
    (inOrder [either (char '+') (char '-'), times 2 digit, char ':', times 2 digit])

def dateTimeOffset : Pattern :=
  inOrder [dateMinutes, optional (inOrder [char ':', times 2 digit, optional fraction]), offset]

def guid : Pattern :=
  inOrder [times 8 hexDigit, char '-', times 4 hexDigit, char '-', times 4 hexDigit, char '-',
    times 4 hexDigit, char '-', times 12 hexDigit]

/-- The kinds of tokens that a text can hold, each with its pattern. -/
def all : List (TokenKind × Pattern) :=
  OptionKind.all.map (fun kind => (.option kind, keyword kind.keyword)) ++
  [(.ref, keyword "$ref"),
   (.identifier, name),
   (.qualifiedName, qualifiedName),
   (.parameterAlias, parameterAlias),
   (.integer, integer),
   (.decimal, decimal),
   (.string, string),
   (.date, date),
   (.dateTimeOffset, dateTimeOffset),
   (.guid, guid),
   (.quotedPhrase, quotedPhrase),
   (.star, char '*'),
   (.slash, char '/'),
   (.openParen, char '('),
   (.closeParen, char ')'),
   (.comma, char ','),
   (.semicolon, char ';'),
   (.equals, char '=')]

/-- The kind and the length of the longest beginning of a text that one of the patterns matches. -/
def longestOf (text : List Char) : List (TokenKind × Pattern) → Option (TokenKind × Nat)
  | [] => none
  | (kind, pattern) :: patterns =>
    match pattern.longest text, longestOf text patterns with
    | none, found => found
    | some length, none => some (kind, length)
    | some length, some found =>
      if found.2 ≤ length then some (kind, length) else some found

end TokenPattern

/-! ## Cutting a text into lexemes -/

/-- What a text begins with, and how many of its characters that takes. -/
inductive Beginning
  | token (kind : TokenKind) (length : Nat)
  | invalid (length : Nat)
deriving DecidableEq, Repr

/-- What a text that does not begin with a blank begins with.

* A string does not end at a quote that is followed by another one, since the two stand for a quote
  within the string.  A string without an end makes the whole text invalid.
* A phrase without an end is invalid as far as it is open.
* A date that goes on with hours and minutes, but does not become a date-time, is no date: up to a
  fraction of seconds the whole is invalid, and without one the date is read as a number.
* Any other character that begins no token is invalid by itself. -/
def beginning (text : List Char) : Beginning :=
  match TokenPattern.longestOf text TokenPattern.all with
  | some (.string, length) =>
    if text[length]? = some '\'' then .invalid text.length else .token .string length
  | some (.date, length) =>
    match TokenPattern.dateFraction.longest text with
    | some reach => .invalid reach
    | none =>
      if TokenPattern.dateMinutes.starts text then .token .integer length
      else .token .date length
  | some (kind, length) => .token kind length
  | none =>
    match text with
    | '\'' :: _ => .invalid text.length
    | '"' :: _ => .invalid ((TokenPattern.openPhrase.longest text).getD 1)
    | _ => .invalid 1

/-- Space, tab, carriage return and line feed stand between tokens. -/
def isBlank (c : Char) : Bool := c = ' ' || c = '\t' || c = '\r' || c = '\n'

/-- A token, or a stretch of text that is none. -/
inductive Lexeme
  | token (token : Token)
  | invalid (text : String) (span : Span)
deriving DecidableEq, Repr

namespace Lexeme

def token? : Lexeme → Option Token
  | .token found => some found
  | .invalid _ _ => none

def invalid? : Lexeme → Option (String × Span)
  | .token _ => none
  | .invalid text span => some (text, span)

end Lexeme

/-- The lexemes of a text that stands `offset` bytes behind the start.  Each step takes at least one
character, so as many steps as there are characters are enough. -/
def lexemesFrom : Nat → Nat → List Char → List Lexeme
  | 0, _, _ => []
  | _, _, [] => []
  | steps + 1, offset, c :: text =>
    if isBlank c then lexemesFrom steps (offset + c.utf8Size) text
    else
      match beginning (c :: text) with
      | .token kind length =>
        let word := String.ofList ((c :: text).take length)
        let stop := offset + word.utf8ByteSize
        .token ⟨kind, word, ⟨offset, stop⟩⟩ :: lexemesFrom steps stop ((c :: text).drop length)
      | .invalid length =>
        let word := String.ofList ((c :: text).take length)
        let stop := offset + word.utf8ByteSize
        .invalid word ⟨offset, stop⟩ :: lexemesFrom steps stop ((c :: text).drop length)

def lexemes (source : String) : List Lexeme :=
  lexemesFrom source.toList.length 0 source.toList

/-- The tokens of a text, with the one that marks its end. -/
def tokens (source : String) : List Token :=
  (lexemes source).filterMap Lexeme.token? ++ [.endOfInput source.utf8ByteSize]

/-- The stretches of a text that are no tokens, and where they stand. -/
def invalidParts (source : String) : List (String × Span) :=
  (lexemes source).filterMap Lexeme.invalid?

end ODataOptions
