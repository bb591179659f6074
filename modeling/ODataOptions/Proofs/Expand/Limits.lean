import ODataOptions.Expand.Parser
import ODataOptions.Proofs.Expression.Limits
import ODataOptions.Proofs.Search.Limits

/-!
# Expansions under different limits

The limits of levels have no effect on how the value of an option is parsed, unless one of them stops
the parser.
-/

namespace ODataOptions

open ODataOptions.Parser

section

variable {scope : Scope} {limits : Limits} {Expansion : Type}
  (hle : scope.limits.expressionDepth ≤ limits.expressionDepth)

include hle

/-- Only expressions, searches and expansions ask for levels. -/
theorem SystemOption.relaxes_parseValue {strict lax : StructuredType → Parser Expansion}
    (hexpansion : ∀ owner, Relaxes (strict owner) (lax owner)) (owner : StructuredType)
    (kind : OptionKind) :
    Relaxes (SystemOption.parseValue scope strict owner kind)
      (SystemOption.parseValue (scope.withLimits limits) lax owner kind) := by
  cases kind with
  | expand => exact (hexpansion owner).before _
  | filter => exact (Expression.relaxes_parseFilter hle owner).before _
  | orderBy => exact (OrderBy.relaxes_parse hle owner).before _
  | search => exact (SearchExpression.relaxes_parse hle).before _
  | count | levels | select | skip | top => exact .refl _

omit hle in
theorem OptionSet.relaxes_parse {strict lax : OptionKind → Parser (SystemOption Expansion)}
    (hvalue : ∀ kind, Relaxes (strict kind) (lax kind)) (context : OptionContext) :
    Relaxes (OptionSet.parse strict context) (OptionSet.parse lax context) := by
  have hoption : ∀ gathered, Relaxes (parseOption strict context gathered)
      (parseOption lax context gathered) := by
    intro gathered
    apply Relaxes.behind
    intro keyword
    cases allowedKind? context keyword with
    | none => exact .refl _
    | some kind =>
      apply Relaxes.behind
      intro _
      apply Relaxes.behind
      intro _
      exact (hvalue kind).before _
  apply Relaxes.behind
  intro opened
  apply Relaxes.ite
  · exact (Relaxes.separatedFrom hoption .semicolon {}).before _
  · exact .refl _

theorem ExpandItem.relaxes_parse {strict lax : StructuredType → Parser Expand}
    (hexpansion : ∀ owner, Relaxes (strict owner) (lax owner)) (owner : StructuredType) :
    Relaxes (ExpandItem.parse scope strict owner)
      (ExpandItem.parse (scope.withLimits limits) lax owner) := by
  have hpath : ∀ cast owner, Relaxes (parsePath scope strict cast owner)
      (parsePath (scope.withLimits limits) lax cast owner) := by
    intro cast owner
    apply Relaxes.behind
    intro target
    apply Relaxes.behind
    intro suffix
    have hvalue := SystemOption.relaxes_parseValue hle hexpansion target.type
    exact (OptionSet.relaxes_parse hvalue suffix.2).before _
  apply Relaxes.behind
  intro star
  apply Relaxes.ite (.refl _)
  apply Relaxes.behind
  intro cast?
  cases cast? with
  | none => exact hpath none owner
  | some cast =>
    apply Relaxes.behind
    intro _
    exact hpath cast cast

/-- Expansions of more levels relax those of fewer ones. -/
theorem Expand.relaxes_parseWithin {few many : Nat} (hlevels : few ≤ many) (owner : StructuredType) :
    Relaxes (Expand.parseWithin scope few owner)
      (Expand.parseWithin (scope.withLimits limits) many owner) := by
  induction few generalizing many owner with
  | zero => exact .expandTooDeep _ _
  | succ few ih =>
    obtain ⟨many, rfl⟩ := Nat.exists_eq_add_of_le' (Nat.le_of_add_left_le hlevels)
    have hnested := ih (Nat.le_of_succ_le_succ hlevels)
    exact (ExpandItem.relaxes_parse hle hnested owner).separated .comma

end

end ODataOptions
