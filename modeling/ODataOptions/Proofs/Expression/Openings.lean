import ODataOptions.OrderBy.Parser
import ODataOptions.Expression.Filter
import ODataOptions.Proofs.Expression.Depths

/-!
# How many levels an expression keeps open

A negation and a call are parsed one level further in than what they stand in.  So on a way down the tree
of an expression there are no more of them than levels that could be opened.
-/

namespace ODataOptions

open ODataOptions.Parser

namespace Expression

mutual

/-- The largest number of negations and calls on a way down the tree. -/
def openings : Expression → Nat
  | .literal _ | .member _ | .parameter _ => 0
  | .not operand => openings operand + 1
  | .binary _ left right => max (openings left) (openings right)
  | .call _ arguments => openingsAll arguments + 1

def openingsAll : List Expression → Nat
  | [] => 0
  | expression :: expressions => max (openings expression) (openingsAll expressions)

end

theorem openingsAll_le {expressions : List Expression} {bound : Nat}
    (hall : ∀ expression ∈ expressions, expression.openings ≤ bound) :
    openingsAll expressions ≤ bound := by
  induction expressions with
  | nil => exact Nat.zero_le bound
  | cons expression expressions ih =>
    obtain ⟨hfirst, hrest⟩ := List.forall_mem_cons.mp hall
    exact Nat.max_le.mpr ⟨hfirst, ih hrest⟩

theorem IsLeaf.openings_eq {tree : Expression} (hleaf : tree.IsLeaf) : tree.openings = 0 := by
  cases tree <;> first | rfl | cases hleaf

namespace Grammar

/-- With `depth` levels open, the parts of the grammar open no more than are left below the limit. -/
structure OpensAt (scope : Scope) (inner : Grammar) (depth : Nat) : Prop where
  whole : YieldsTrees depth inner.whole fun tree =>
    tree.openings ≤ scope.limits.expressionDepth - depth
  operand : YieldsTrees depth inner.operand fun tree =>
    tree.openings ≤ scope.limits.expressionDepth - depth

namespace OpensAt

variable {scope : Scope} {owner : StructuredType} {inner : Grammar} {depth : Nat}

/-- Operations open no level. -/
theorem operations {bound : Nat} {parser : Parser TypedExpression}
    (hparser : YieldsTrees depth parser fun tree => tree.openings ≤ bound)
    (operators : List BinaryOperator) :
    YieldsTrees depth (operations operators parser) fun tree => tree.openings ≤ bound := by
  apply YieldsTrees.operations hparser
  · exact fun _ htree => htree
  · intro operator _ left right hleft hright
    exact Nat.max_le.mpr ⟨hleft, hright⟩

variable (hinner : inner.OpensAt scope (depth + 1))

include hinner

theorem primary :
    YieldsTrees depth (primary scope owner inner) fun tree =>
      tree.openings ≤ scope.limits.expressionDepth - depth := by
  apply yieldsTrees_primary (P := fun tree =>
    tree.openings ≤ scope.limits.expressionDepth - (depth + 1))
  · intro tree hleaf
    rw [hleaf.openings_eq]
    exact Nat.zero_le _
  · intro hbelow
    exact hinner.whole
  · intro hbelow tree htree
    omega
  · intro hbelow method arguments hall
    have harguments := openingsAll_le hall
    rw [openings]
    omega

theorem comparison :
    YieldsTrees depth (comparison scope owner inner) fun tree =>
      tree.openings ≤ scope.limits.expressionDepth - depth := by
  have hprimary : YieldsTrees depth (Grammar.primary scope owner inner) _ := hinner.primary
  have hadditive := operations (operations hprimary [.mul, .div, .mod]) [.add, .sub]
  apply YieldsTrees.comparison hadditive
  · exact fun _ htree => htree
  · intro operator left right hleft hright
    exact Nat.max_le.mpr ⟨hleft, hright⟩

theorem negation :
    YieldsTrees depth (negation scope owner inner) fun tree =>
      tree.openings ≤ scope.limits.expressionDepth - depth := by
  apply yieldsTrees_negation (P := fun tree =>
    tree.openings ≤ scope.limits.expressionDepth - (depth + 1))
  · intro hbelow
    exact hinner.operand
  · intro hbelow tree htree
    rw [openings]
    omega
  · exact hinner.comparison

theorem disjunction :
    YieldsTrees depth (disjunction scope owner inner) fun tree =>
      tree.openings ≤ scope.limits.expressionDepth - depth := by
  have hnegation : YieldsTrees depth (Grammar.negation scope owner inner) _ := hinner.negation
  exact operations (operations hnegation [.and]) [.or]

end OpensAt

/-- The depth decides, not how often the grammar has referred back to itself. -/
theorem opensAt_ofLevels (scope : Scope) (owner : StructuredType) (levels depth : Nat) :
    (ofLevels scope owner levels).OpensAt scope depth := by
  induction levels generalizing depth with
  | zero => exact ⟨yieldsAt_failHere _, yieldsAt_failHere _⟩
  | succ levels ih => exact ⟨(ih (depth + 1)).disjunction, (ih (depth + 1)).negation⟩

end Grammar

end Expression

section

variable (scope : Scope) (owner : StructuredType) (depth : Nat)

/-- With `depth` levels open, an expression opens no more than are left below the limit. -/
theorem Expression.yieldsAt_parse :
    YieldsAt depth (Expression.parse scope owner) fun typed =>
      typed.expression.openings ≤ scope.limits.expressionDepth - depth :=
  (Grammar.opensAt_ofLevels scope owner _ depth).whole

theorem Expression.yieldsAt_parseFilter :
    YieldsAt depth (Expression.parseFilter scope owner) fun filter =>
      filter.openings ≤ scope.limits.expressionDepth - depth := by
  apply (Expression.yieldsAt_parse scope owner depth).bind
  intro filter hfilter
  split
  · exact .pure hfilter
  · exact yieldsAt_throw _

theorem OrderBy.yieldsAt_parse :
    YieldsAt depth (OrderBy.parse scope owner) fun keys =>
      ∀ key ∈ keys, key.expression.openings ≤ scope.limits.expressionDepth - depth := by
  apply YieldsAt.separated _ .comma
  apply (Expression.yieldsAt_parse scope owner depth).bind
  intro key hkey
  split
  · exact yieldsAt_throw _
  · apply (moves_oneOfWords _ _).bind_yieldsAt
    intro direction
    exact .pure hkey

end

end ODataOptions
