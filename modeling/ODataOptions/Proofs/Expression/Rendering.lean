import ODataOptions.Proofs.Expression.Typing
import ODataOptions.Proofs.Expression.Words
import ODataOptions.Proofs.Precedence

/-!
# Renderings of expressions

An expression can be written in more than one way: parentheses may stand around any part of it, and
they must stand where an operand does not hold together as tightly as its operator asks for.  The
operators of one precedence take their operands from the left, and a comparison is no operand of
another one.
-/

namespace ODataOptions

namespace BinaryOperator

def precedence : BinaryOperator → Precedence
  | .or => .disjunction
  | .and => .conjunction
  | .eq | .ne | .gt | .ge | .lt | .le => .comparison
  | .add | .sub => .additive
  | .mul | .div | .mod => .multiplicative

/-- How tightly a left operand must hold together.  An operation of the same precedence may stand there
without parentheses, unless it is a comparison. -/
def leftPrecedence (operator : BinaryOperator) : Precedence :=
  if operator.isComparison then operator.precedence.tighter else operator.precedence

def rightPrecedence (operator : BinaryOperator) : Precedence := operator.precedence.tighter

end BinaryOperator

namespace Expression

/-- The words render the expression where an operand of the precedence is asked for, and open at most
so many levels inside one another.  A level is opened by parentheses, a negation or a call. -/
inductive Renders : Nat → Precedence → Expression → List Word → Prop
  | literal {levels : Nat} {precedence : Precedence} (value : Literal) :
      Renders levels precedence (.literal value) [value.word]
  | member {levels : Nat} {precedence : Precedence} (path : List Member) :
      Renders levels precedence (.member path) (Member.pathWords path)
  | parameter {levels : Nat} {precedence : Precedence} (name : String) :
      Renders levels precedence (.parameter name) [⟨.parameterAlias, "@" ++ name⟩]
  | call {levels : Nat} {precedence : Precedence} (method : Method)
      {arguments : List (Expression × List Word)}
      (harguments : ∀ argument ∈ arguments, Renders levels .disjunction argument.1 argument.2) :
      Renders (levels + 1) precedence (.call method (arguments.map Prod.fst))
        (.identifier method.name :: .openParen ::
          Word.joined .comma (arguments.map Prod.snd) ++ [.closeParen])
  | not {levels : Nat} {precedence : Precedence} {operand : Expression} {words : List Word}
      (hloose : precedence ≤ .negation) (hoperand : Renders levels .negation operand words) :
      Renders (levels + 1) precedence (.not operand) (.identifier "not" :: words)
  | binary {levels : Nat} {precedence : Precedence} {operator : BinaryOperator}
      {left right : Expression} {leftWords rightWords : List Word}
      (hloose : precedence ≤ operator.precedence)
      (hleft : Renders levels operator.leftPrecedence left leftWords)
      (hright : Renders levels operator.rightPrecedence right rightWords) :
      Renders levels precedence (.binary operator left right)
        (leftWords ++ (.identifier operator.keyword :: rightWords))
  | parentheses {levels : Nat} {precedence : Precedence} {expression : Expression} {words : List Word}
      (hinner : Renders levels .disjunction expression words) :
      Renders (levels + 1) precedence expression (.openParen :: words ++ [.closeParen])

mutual

/-- No path in the expression begins with a member of the name `not`. -/
def Plain : Expression → Prop
  | .literal _ | .parameter _ => True
  | .member path => ¬ LooksNegated (.member path)
  | .not operand => Plain operand
  | .binary _ left right => Plain left ∧ Plain right
  | .call _ arguments => AllPlain arguments

def AllPlain : List Expression → Prop
  | [] => True
  | expression :: expressions => Plain expression ∧ AllPlain expressions

end

theorem allPlain_iff {expressions : List Expression} :
    AllPlain expressions ↔ ∀ expression ∈ expressions, expression.Plain := by
  induction expressions with
  | nil => simp [AllPlain]
  | cons expression expressions ih => simp [AllPlain, ih]

end Expression

end ODataOptions
