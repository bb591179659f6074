import ODataOptions.Proofs.Search.Depths

/-!
# How many levels a search keeps open

A negation is parsed one level further in than what it stands in, so on a way down the tree of a search
there are no more of them than levels that could be opened.
-/

namespace ODataOptions.SearchExpression

open ODataOptions.Parser

/-- The largest number of negations on a way down the tree. -/
def openings : SearchExpression → Nat
  | .term _ | .phrase _ => 0
  | .not operand => operand.openings + 1
  | .and left right | .or left right => max left.openings right.openings

namespace Grammar

/-- With `depth` levels open, the parts of the grammar open no more than are left below the limit. -/
structure OpensAt (limits : Limits) (inner : Grammar) (depth : Nat) : Prop where
  whole : YieldsAt depth inner.whole fun search => search.openings ≤ limits.expressionDepth - depth
  operand : YieldsAt depth inner.operand fun search => search.openings ≤ limits.expressionDepth - depth

namespace OpensAt

variable {limits : Limits} {inner : Grammar} {depth : Nat}

section

variable (hinner : inner.OpensAt limits (depth + 1))

include hinner

theorem negation :
    YieldsAt depth (negation limits inner) fun search =>
      search.openings ≤ limits.expressionDepth - depth := by
  apply yieldsAt_negation (P := fun search =>
    search.openings ≤ limits.expressionDepth - (depth + 1))
  · intro hbelow
    exact hinner.operand
  · intro hbelow search hsearch
    rw [openings]
    omega
  · apply yieldsAt_primary (P := fun search =>
      search.openings ≤ limits.expressionDepth - (depth + 1))
    · exact fun _ => Nat.zero_le _
    · exact fun _ => Nat.zero_le _
    · intro hbelow
      exact hinner.whole
    · intro hbelow search hsearch
      omega

/-- Words between operands open no level. -/
theorem disjunction :
    YieldsAt depth (disjunction limits inner) fun search =>
      search.openings ≤ limits.expressionDepth - depth := by
  have hconjunction : YieldsAt depth (conjunction limits inner) fun search =>
      search.openings ≤ limits.expressionDepth - depth := by
    apply yieldsAt_conjunction hinner.negation
    · exact fun _ hsearch => hsearch
    · exact fun _ _ hleft hright => Nat.max_le.mpr ⟨hleft, hright⟩
  apply yieldsAt_disjunction hconjunction
  · exact fun _ hsearch => hsearch
  · exact fun _ _ hleft hright => Nat.max_le.mpr ⟨hleft, hright⟩

end

theorem ofLevels (limits : Limits) (levels depth : Nat) :
    (ofLevels limits levels).OpensAt limits depth := by
  induction levels generalizing depth with
  | zero => exact ⟨yieldsAt_failHere _, yieldsAt_failHere _⟩
  | succ levels ih => exact ⟨(ih (depth + 1)).disjunction, (ih (depth + 1)).negation⟩

end OpensAt

end Grammar

/-- With `depth` levels open, a search opens no more than are left below the limit. -/
theorem yieldsAt_parse (limits : Limits) (depth : Nat) :
    YieldsAt depth (SearchExpression.parse limits) fun search =>
      search.openings ≤ limits.expressionDepth - depth :=
  (Grammar.OpensAt.ofLevels limits _ depth).whole

end ODataOptions.SearchExpression
