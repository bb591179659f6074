import ODataOptions.Proofs.Parser.Relaxes
import ODataOptions.Search.Parser

/-!
# Searches under different limits

A limit of levels has no effect on how a search is parsed, unless it stops the parser.
-/

namespace ODataOptions

open ODataOptions.Parser

namespace SearchExpression

structure Grammar.Relaxes (strict lax : Grammar) : Prop where
  whole : Parser.Relaxes strict.whole lax.whole
  operand : Parser.Relaxes strict.operand lax.operand

namespace Grammar.Relaxes

variable {limits limits' : Limits} {strict lax : Grammar}
  (hle : limits.expressionDepth ≤ limits'.expressionDepth)

include hle

theorem primary (hinner : strict.Relaxes lax) :
    Parser.Relaxes (primary limits strict) (primary limits' lax) := by
  have hgroup : Parser.Relaxes (group strict) (group lax) := by
    apply Parser.Relaxes.behind
    intro _
    exact hinner.whole.before _
  apply Parser.Relaxes.behind
  intro _
  exact .ite (hgroup.nested hle) (.refl _)

theorem negation (hinner : strict.Relaxes lax) :
    Parser.Relaxes (negation limits strict) (negation limits' lax) := by
  have hnegated : Parser.Relaxes (negated strict) (negated lax) := by
    apply Parser.Relaxes.behind
    intro _
    exact hinner.operand.before _
  apply Parser.Relaxes.behind
  intro _
  exact .ite (hnegated.nested hle) (hinner.primary hle)

/-- Grammars for more levels relax those for fewer ones. -/
theorem ofLevels {few many : Nat} (hlevels : few ≤ many) :
    (ofLevels limits few).Relaxes (ofLevels limits' many) := by
  induction few generalizing many with
  | zero => exact ⟨.expressionTooDeep _ _, .expressionTooDeep _ _⟩
  | succ few ih =>
    obtain ⟨many, rfl⟩ := Nat.exists_eq_add_of_le' (Nat.le_of_add_left_le hlevels)
    have hnegation := (ih (Nat.le_of_succ_le_succ hlevels)).negation hle
    exact ⟨(hnegation.chain _ _).chain _ _, hnegation⟩

end Grammar.Relaxes

theorem relaxes_parse {limits limits' : Limits}
    (hle : limits.expressionDepth ≤ limits'.expressionDepth) :
    Relaxes (SearchExpression.parse limits) (SearchExpression.parse limits') :=
  (Grammar.Relaxes.ofLevels hle (Nat.succ_le_succ hle)).whole

end SearchExpression

end ODataOptions
