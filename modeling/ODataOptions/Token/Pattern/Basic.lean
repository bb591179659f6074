/-!
# Patterns of characters

Regular patterns say which texts are tokens of a kind.  `Pattern.Matches` is the meaning of a
pattern, and `Pattern.longest` finds how far a pattern reaches into a text by taking derivatives: the
derivative of a pattern by a character matches what may follow that character.
-/

namespace ODataOptions

inductive Pattern
  /-- Matches no text. -/
  | nothing
  /-- Matches the empty text. -/
  | empty
  /-- Matches each single character of a class. -/
  | oneOf (accepts : Char → Bool)
  /-- Matches a text of the first pattern followed by one of the second. -/
  | seq (first second : Pattern)
  /-- Matches the texts of either pattern. -/
  | either (left right : Pattern)
  /-- Matches any number of texts of the pattern, one after another. -/
  | many (item : Pattern)

namespace Pattern

inductive Matches : Pattern → List Char → Prop
  | empty : Matches empty []
  | oneOf {accepts : Char → Bool} {c : Char} (haccepts : accepts c = true) :
      Matches (oneOf accepts) [c]
  | seq {first second : Pattern} {text rest : List Char} (hfirst : Matches first text)
      (hsecond : Matches second rest) : Matches (seq first second) (text ++ rest)
  | left {left right : Pattern} {text : List Char} (hleft : Matches left text) :
      Matches (either left right) text
  | right {left right : Pattern} {text : List Char} (hright : Matches right text) :
      Matches (either left right) text
  | done {item : Pattern} : Matches (many item) []
  | more {item : Pattern} {text rest : List Char} (hitem : Matches item text)
      (hmany : Matches (many item) rest) : Matches (many item) (text ++ rest)

/-! ## Shorthand -/

def char (c : Char) : Pattern := oneOf (· = c)

/-- Matches a letter in either case, and any other character itself. -/
def letter (c : Char) : Pattern := oneOf (·.toLower = c.toLower)

def inOrder : List Pattern → Pattern
  | [] => empty
  | pattern :: patterns => seq pattern (inOrder patterns)

def times (count : Nat) (pattern : Pattern) : Pattern := inOrder (List.replicate count pattern)

def many1 (pattern : Pattern) : Pattern := seq pattern (many pattern)

def optional (pattern : Pattern) : Pattern := either pattern empty

/-- Matches the word in any mixture of cases. -/
def keyword (word : String) : Pattern := inOrder (word.toList.map letter)

/-! ## Derivatives -/

def nullable : Pattern → Bool
  | nothing => false
  | empty => true
  | oneOf _ => false
  | seq first second => first.nullable && second.nullable
  | either left right => left.nullable || right.nullable
  | many _ => true

/-- Sequence, without the parts that change nothing. -/
def followedBy : Pattern → Pattern → Pattern
  | nothing, _ => nothing
  | empty, second => second
  | first, second => seq first second

/-- Choice, without the parts that change nothing. -/
def orElse : Pattern → Pattern → Pattern
  | nothing, right => right
  | left, nothing => left
  | left, right => either left right

/-- The pattern of what may follow the character `c` in the texts of a pattern. -/
def derivative (c : Char) : Pattern → Pattern
  | nothing => nothing
  | empty => nothing
  | oneOf accepts => if accepts c then empty else nothing
  | seq first second =>
    if first.nullable then
      ((first.derivative c).followedBy second).orElse (second.derivative c)
    else (first.derivative c).followedBy second
  | either left right => (left.derivative c).orElse (right.derivative c)
  | many item => (item.derivative c).followedBy (many item)

/-- The length of the longest beginning of a text that the pattern matches. -/
def longest : Pattern → List Char → Option Nat
  | nothing, _ => none
  | pattern, [] => if pattern.nullable then some 0 else none
  | pattern, c :: text =>
    match (pattern.derivative c).longest text with
    | some length => some (length + 1)
    | none => if pattern.nullable then some 0 else none

/-- Whether the pattern matches some beginning of a text. -/
def starts (pattern : Pattern) (text : List Char) : Bool := (pattern.longest text).isSome

end Pattern

end ODataOptions
