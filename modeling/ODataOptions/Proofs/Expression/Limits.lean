import ODataOptions.OrderBy.Parser
import ODataOptions.Expression.Filter
import ODataOptions.Proofs.Parser.Relaxes

/-!
# Expressions under different limits

A limit of levels has no effect on how an expression is parsed, unless it stops the parser.
-/

namespace ODataOptions

open ODataOptions.Parser

def Scope.withLimits (scope : Scope) (limits : Limits) : Scope := { scope with limits }

namespace Expression.Grammar

/-- The parts that the grammars refer back to relax one another. -/
structure Relaxes (strict lax : Grammar) : Prop where
  whole : Parser.Relaxes strict.whole lax.whole
  operand : Parser.Relaxes strict.operand lax.operand

namespace Relaxes

variable {scope : Scope} {owner : StructuredType} {limits : Limits} {strict lax : Grammar}

theorem group (hinner : strict.Relaxes lax) : Parser.Relaxes (group strict) (group lax) := by
  apply Parser.Relaxes.behind
  intro _
  exact hinner.whole.before _

theorem arguments (hinner : strict.Relaxes lax) :
    Parser.Relaxes (arguments strict) (arguments lax) := by
  apply Parser.Relaxes.behind
  intro _
  exact .ite (.refl _) (hinner.whole.separated .comma)

theorem methodCall (hinner : strict.Relaxes lax) :
    Parser.Relaxes (methodCall strict) (methodCall lax) := by
  apply Parser.Relaxes.behind
  intro name
  cases Method.ofName? name.text with
  | none => exact .refl _
  | some method =>
    apply Parser.Relaxes.behind
    intro _
    apply Parser.Relaxes.behind
    intro _
    exact hinner.arguments.before _

theorem negated (hinner : strict.Relaxes lax) : Parser.Relaxes (negated strict) (negated lax) := by
  apply Parser.Relaxes.behind
  intro _
  exact hinner.operand.before _

section

variable (hle : scope.limits.expressionDepth ≤ limits.expressionDepth) (hinner : strict.Relaxes lax)

include hle hinner

/-- Only calls open a level, so that paths and words are parsed alike. -/
theorem named :
    Parser.Relaxes (named scope owner strict) (named (scope.withLimits limits) owner lax) := by
  apply Parser.Relaxes.behind
  intro token
  apply Parser.Relaxes.behind
  intro _
  apply Parser.Relaxes.ite (.refl _)
  apply Parser.Relaxes.behind
  intro _
  apply Parser.Relaxes.ite (.refl _)
  apply Parser.Relaxes.behind
  intro _
  exact .ite (hinner.methodCall.nested hle) (.refl _)

theorem primary :
    Parser.Relaxes (primary scope owner strict) (primary (scope.withLimits limits) owner lax) := by
  apply Parser.Relaxes.behind
  intro token
  cases token.kind with
  | openParen => exact hinner.group.nested hle
  | identifier => exact hinner.named hle
  | _ => exact .refl _

theorem comparison :
    Parser.Relaxes (comparison scope owner strict)
      (comparison (scope.withLimits limits) owner lax) := by
  have hadditive : Parser.Relaxes (additive scope owner strict)
      (additive (scope.withLimits limits) owner lax) :=
    ((hinner.primary hle).chain _ _).chain _ _
  apply hadditive.bind
  intro left
  apply Parser.Relaxes.behind
  intro operator
  cases operator with
  | none => exact .refl _
  | some operator => exact hadditive.before _

theorem negation :
    Parser.Relaxes (negation scope owner strict) (negation (scope.withLimits limits) owner lax) := by
  apply Parser.Relaxes.behind
  intro _
  exact .ite (hinner.negated.nested hle) (hinner.comparison hle)

theorem disjunction :
    Parser.Relaxes (disjunction scope owner strict)
      (disjunction (scope.withLimits limits) owner lax) :=
  ((hinner.negation hle).chain _ _).chain _ _

end

/-- Grammars for more levels relax those for fewer ones. -/
theorem ofLevels (hle : scope.limits.expressionDepth ≤ limits.expressionDepth) {few many : Nat}
    (hlevels : few ≤ many) :
    (ofLevels scope owner few).Relaxes (ofLevels (scope.withLimits limits) owner many) := by
  induction few generalizing many with
  | zero => exact ⟨.expressionTooDeep _ _, .expressionTooDeep _ _⟩
  | succ few ih =>
    obtain ⟨many, rfl⟩ := Nat.exists_eq_add_of_le' (Nat.le_of_add_left_le hlevels)
    have hinner := ih (Nat.le_of_succ_le_succ hlevels)
    exact ⟨hinner.disjunction hle, hinner.negation hle⟩

end Relaxes

end Expression.Grammar

section

variable {scope : Scope} {limits : Limits}
  (hle : scope.limits.expressionDepth ≤ limits.expressionDepth) (owner : StructuredType)

include hle

theorem Expression.relaxes_parse :
    Relaxes (Expression.parse scope owner) (Expression.parse (scope.withLimits limits) owner) :=
  (Grammar.Relaxes.ofLevels hle (Nat.succ_le_succ hle)).whole

theorem Expression.relaxes_parseFilter :
    Relaxes (Expression.parseFilter scope owner)
      (Expression.parseFilter (scope.withLimits limits) owner) := by
  exact (Expression.relaxes_parse hle owner).before _

theorem OrderBy.relaxes_parse :
    Relaxes (OrderBy.parse scope owner) (OrderBy.parse (scope.withLimits limits) owner) := by
  apply Relaxes.separated
  exact (Expression.relaxes_parse hle owner).before _

end

end ODataOptions
