import ODataOptions.Proofs.Parser.Depths
import ODataOptions.Proofs.Search.Mirrors

/-!
# Trees that the grammar of searches yields at a depth

As with expressions, a group and the operand of a negation are parsed one level further in than what they
stand in, and below the limit.  Here is one rule for each rule of the grammar, whatever is to be known of the
trees.
-/

namespace ODataOptions.SearchExpression.Grammar

open ODataOptions.Parser

variable {limits : Limits} {inner : Grammar} {depth : Nat} {P Q : SearchExpression → Prop}

theorem yieldsAt_group (hwhole : YieldsAt depth inner.whole P) : YieldsAt depth (group inner) P := by
  apply (moves_expect .openParen).bind_yieldsAt
  intro _
  apply hwhole.bind
  intro content hcontent
  apply (moves_expect .closeParen).bind_yieldsAt
  intro _
  exact .pure hcontent

theorem yieldsAt_negated (hoperand : YieldsAt depth inner.operand P)
    (hnot : ∀ search, P search → Q (.not search)) : YieldsAt depth (negated inner) Q := by
  apply (moves_expect .identifier).bind_yieldsAt
  intro _
  exact hoperand.map hnot

/-- An operand is a word or a phrase, or else it is a group, the content of which is parsed one level further
in. -/
theorem yieldsAt_primary (hterm : ∀ text, Q (.term text)) (hphrase : ∀ text, Q (.phrase text))
    (hwhole : depth < limits.expressionDepth → YieldsAt (depth + 1) inner.whole P)
    (hgroup : depth < limits.expressionDepth → ∀ search, P search → Q search) :
    YieldsAt depth (primary limits inner) Q := by
  apply moves_current.bind_yieldsAt
  intro token
  split
  · apply YieldsAt.nested
    intro hbelow
    exact (yieldsAt_group (hwhole hbelow)).mono (hgroup hbelow)
  · apply (moves_takeIf _).bind_yieldsAt
    intro quoted
    cases quoted with
    | some token => exact .pure (hphrase _)
    | none =>
      apply (moves_takeIf _).bind_yieldsAt
      intro word
      cases word with
      | some token => exact .pure (hterm _)
      | none => exact yieldsAt_unexpected _

/-- The operand of a negation is parsed one level further in. -/
theorem yieldsAt_negation
    (hoperand : depth < limits.expressionDepth → YieldsAt (depth + 1) inner.operand P)
    (hnot : depth < limits.expressionDepth → ∀ search, P search → Q (.not search))
    (hprimary : YieldsAt depth (primary limits inner) Q) :
    YieldsAt depth (negation limits inner) Q := by
  apply moves_current.bind_yieldsAt
  intro token
  split
  · apply YieldsAt.nested
    intro hbelow
    exact yieldsAt_negated (hoperand hbelow) (hnot hbelow)
  · exact hprimary

/-- What joining two operands keeps, a chain of them keeps. -/
theorem yieldsAt_conjunction (hnegation : YieldsAt depth (negation limits inner) P)
    (hfirst : ∀ search, P search → Q search)
    (hand : ∀ left right, Q left → P right → Q (.and left right)) :
    YieldsAt depth (conjunction limits inner) Q := by
  apply hnegation.chain (R := fun _ => True) hfirst
  · exact mirrors_conjunctionSign.moves.yieldsAt.mono fun _ _ _ _ => trivial
  · rintro _ left right _ - hleft hright ⟨⟩
    exact hand left right hleft hright

theorem yieldsAt_disjunction (hconjunction : YieldsAt depth (conjunction limits inner) P)
    (hfirst : ∀ search, P search → Q search)
    (hor : ∀ left right, Q left → P right → Q (.or left right)) :
    YieldsAt depth (disjunction limits inner) Q := by
  apply hconjunction.chain (R := fun _ => True) hfirst
  · exact mirrors_disjunctionSign.moves.yieldsAt.mono fun _ _ _ _ => trivial
  · rintro _ left right _ - hleft hright ⟨⟩
    exact hor left right hleft hright

end ODataOptions.SearchExpression.Grammar
