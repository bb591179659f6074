import ODataOptions.Expression.Basic
import ODataOptions.Expression.Parser
import ODataOptions.Proofs.Token.Word

/-!
# Expressions spelled from a vocabulary

The names and the literal texts of an expression come from words.  An expression is spelled from a
vocabulary if each of them is the text of a word of the right kind.
-/

namespace ODataOptions

/-- A constant that a word of the vocabulary can stand for. -/
def Literal.Spelled (words : Vocabulary) : Literal → Prop
  | .null | .boolean _ | .string _ => True
  | .integer value => Literal.inRange value = true
  | .decimal text => words ⟨.decimal, text⟩
  | .date text => words ⟨.date, text⟩
  | .dateTimeOffset text => words ⟨.dateTimeOffset, text⟩
  | .guid text => words ⟨.guid, text⟩

/-- Whether an identifier is one that is read as a constant rather than as a name. -/
def isConstantName (name : String) : Bool :=
  Word.isA ⟨.identifier, name⟩ .null || Word.isA ⟨.identifier, name⟩ .boolean

/-- A path whose names are words of the vocabulary, the first of which is not read as a constant. -/
def Member.PathSpelled (words : Vocabulary) (path : List Member) : Prop :=
  (∀ member ∈ path, words ⟨.identifier, member.name⟩) ∧
    ∀ first ∈ path.head?, isConstantName first.name = false

/-- The name that the text of a parameter alias stands for. -/
def parameterName (text : String) : String :=
  String.ofList (text.toList.dropWhile (· = '@'))

namespace Expression

/-- The expression is written like a negation, though it is a path that begins with a member of the
name `not`. -/
def LooksNegated : Expression → Prop
  | .member (first :: _) => first.name = "not"
  | _ => False

variable (words : Vocabulary)

mutual

/-- Every name and every literal text of the expression is that of a word of the vocabulary. -/
def Spelled : Expression → Prop
  | .literal value => value.Spelled words
  | .member path => Member.PathSpelled words path
  | .parameter name => ∃ text, words ⟨.parameterAlias, text⟩ ∧ name = parameterName text
  | .not operand => Spelled operand
  | .binary _ left right => Spelled left ∧ Spelled right
  | .call _ arguments => AllSpelled arguments

def AllSpelled : List Expression → Prop
  | [] => True
  | expression :: expressions => Spelled expression ∧ AllSpelled expressions

end

theorem allSpelled_iff {words : Vocabulary} {expressions : List Expression} :
    AllSpelled words expressions ↔ ∀ expression ∈ expressions, Spelled words expression := by
  induction expressions with
  | nil => simp [AllSpelled]
  | cons expression expressions ih => simp [AllSpelled, ih]

end Expression

end ODataOptions
