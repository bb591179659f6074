import ODataOptions.Proofs.Expression.Mirrors
import ODataOptions.Proofs.Fault
import ODataOptions.Proofs.Parser.Depths

/-!
# Trees that the grammar of expressions yields at a depth

A tree that is parsed with so many levels open is made of trees that are parsed at the same depth, and of
trees that stand one level further in.  A level is opened below the limit only, so the counter at the cursor
bounds whatever grows with the levels.

Here is one rule for each rule of the grammar.  What is to be known of the trees is left open.
-/

namespace ODataOptions.Expression

open ODataOptions.Parser

/-- The expression has no parts. -/
def IsLeaf : Expression → Prop
  | .literal _ | .member _ | .parameter _ => True
  | .not _ | .binary _ _ _ | .call _ _ => False

theorem expression_of_binary {operator : BinaryOperator} {left right typed : TypedExpression}
    (hbinary : TypedExpression.binary operator left right = .ok typed) :
    typed.expression = .binary operator left.expression right.expression := by
  obtain ⟨type, -, hresult⟩ := Fault.bind_eq_ok_iff.mp hbinary
  cases hresult
  rfl

theorem expression_of_call {method : Method} {arguments : List TypedExpression} {span : Span}
    {typed : TypedExpression} (hcall : TypedExpression.call method arguments span = .ok typed) :
    typed.expression = .call method (arguments.map TypedExpression.expression) := by
  rw [TypedExpression.call] at hcall
  split at hcall
  · obtain ⟨_, -, hresult⟩ := Fault.bind_eq_ok_iff.mp hcall
    cases hresult
    rfl
  · cases hcall

namespace Grammar

/-- Where `depth` levels are open, the trees that the parser yields satisfy the predicate. -/
def YieldsTrees (depth : Nat) (parser : Parser TypedExpression) (P : Expression → Prop) : Prop :=
  YieldsAt depth parser fun typed => P typed.expression

variable {scope : Scope} {owner : StructuredType} {inner : Grammar} {depth : Nat}
  {parser : Parser TypedExpression} {P Q R : Expression → Prop}

theorem YieldsTrees.mono (hparser : YieldsTrees depth parser P) (himp : ∀ tree, P tree → Q tree) :
    YieldsTrees depth parser Q :=
  YieldsAt.mono hparser fun typed htree => himp typed.expression htree

/-! ## Operands without levels -/

theorem yieldsTrees_memberPath (scope : Scope) (owner : StructuredType) :
    YieldsTrees depth (memberPath scope owner) IsLeaf := by
  apply moves_current.bind_yieldsAt
  intro first
  apply (moves_unfold (fun owner => (mirrors_memberSegment owner).moves) owner).bind_yieldsAt
  intro path
  apply moves_get.bind_yieldsAt
  intro cursor
  exact .pure trivial

theorem yieldsTrees_literal : YieldsTrees depth literal IsLeaf := by
  apply moves_next.bind_yieldsAt
  intro token
  apply (moves_ofExcept _).bind_yieldsAt
  intro value
  exact .pure trivial

theorem yieldsTrees_parameter (scope : Scope) : YieldsTrees depth (parameter scope) IsLeaf := by
  apply moves_next.bind_yieldsAt
  intro token
  exact .pure trivial

/-! ## Levels -/

theorem YieldsTrees.group (hwhole : YieldsTrees depth inner.whole P) :
    YieldsTrees depth (group inner) P := by
  apply (moves_expect .openParen).bind_yieldsAt
  intro first
  apply YieldsAt.bind hwhole
  intro content hcontent
  apply (moves_expect .closeParen).bind_yieldsAt
  intro last
  exact .pure hcontent

theorem YieldsTrees.arguments (hwhole : YieldsTrees depth inner.whole P) :
    YieldsAt depth (arguments inner) fun arguments =>
      ∀ argument ∈ arguments.map TypedExpression.expression, P argument := by
  apply moves_current.bind_yieldsAt
  intro token
  split
  · exact .pure (List.forall_mem_nil _)
  · apply (YieldsAt.separated hwhole .comma).mono
    intro arguments hall
    exact List.forall_mem_map.mpr hall

theorem YieldsTrees.methodCall (hwhole : YieldsTrees depth inner.whole P)
    (hcall : ∀ method arguments, (∀ argument ∈ arguments, P argument) → Q (.call method arguments)) :
    YieldsTrees depth (methodCall inner) Q := by
  apply moves_current.bind_yieldsAt
  intro name
  cases Method.ofName? name.text with
  | none => exact yieldsAt_throw _
  | some method =>
    apply (moves_expect .identifier).bind_yieldsAt
    intro _
    apply (moves_expect .openParen).bind_yieldsAt
    intro _
    apply hwhole.arguments.bind
    intro arguments hall
    apply (moves_expect .closeParen).bind_yieldsAt
    intro last
    apply yieldsAt_ofExcept
    intro typed htyped
    rw [expression_of_call htyped]
    exact hcall method _ hall

theorem YieldsTrees.negated (hoperand : YieldsTrees depth inner.operand P)
    (hnot : ∀ tree, P tree → Q (.not tree)) : YieldsTrees depth (negated inner) Q := by
  apply (moves_expect .identifier).bind_yieldsAt
  intro word
  apply YieldsAt.bind hoperand
  intro operand htree
  apply (moves_ofExcept _).bind_yieldsAt
  intro _
  exact .pure (hnot operand.expression htree)

/-- A name is a leaf, or else it is called, and the arguments are parsed one level further in. -/
theorem yieldsTrees_named (hleaf : ∀ tree, tree.IsLeaf → Q tree)
    (hwhole : depth < scope.limits.expressionDepth → YieldsTrees (depth + 1) inner.whole P)
    (hcall : depth < scope.limits.expressionDepth → ∀ method arguments,
      (∀ argument ∈ arguments, P argument) → Q (.call method arguments)) :
    YieldsTrees depth (named scope owner inner) Q := by
  apply moves_current.bind_yieldsAt
  intro token
  apply (moves_accept .null).bind_yieldsAt
  intro null
  split
  · exact .pure (hleaf _ trivial)
  · apply (moves_accept .boolean).bind_yieldsAt
    intro boolean
    split
    · exact .pure (hleaf _ trivial)
    · apply moves_get.bind_yieldsAt
      intro cursor
      split
      · apply YieldsAt.nested
        intro hbelow
        exact (hwhole hbelow).methodCall (hcall hbelow)
      · exact (yieldsTrees_memberPath scope owner).mono hleaf

/-- An operand is a leaf, or else it is a call or a group, the content of which is parsed one level further
in. -/
theorem yieldsTrees_primary (hleaf : ∀ tree, tree.IsLeaf → Q tree)
    (hwhole : depth < scope.limits.expressionDepth → YieldsTrees (depth + 1) inner.whole P)
    (hgroup : depth < scope.limits.expressionDepth → ∀ tree, P tree → Q tree)
    (hcall : depth < scope.limits.expressionDepth → ∀ method arguments,
      (∀ argument ∈ arguments, P argument) → Q (.call method arguments)) :
    YieldsTrees depth (primary scope owner inner) Q := by
  apply moves_current.bind_yieldsAt
  intro token
  split
  · apply YieldsAt.nested
    intro hbelow
    exact (hwhole hbelow).group.mono (hgroup hbelow)
  iterate 6 exact yieldsTrees_literal.mono hleaf
  · exact (yieldsTrees_parameter scope).mono hleaf
  · exact yieldsTrees_named hleaf hwhole hcall
  · exact yieldsAt_unexpected _

/-! ## Operations -/

/-- What holds of the first operand and is kept by each operation holds of the whole chain. -/
theorem YieldsTrees.operations {operators : List BinaryOperator} (hparser : YieldsTrees depth parser P)
    (hfirst : ∀ tree, P tree → Q tree)
    (hbinary : ∀ operator ∈ operators, ∀ left right, Q left → P right →
      Q (.binary operator left right)) :
    YieldsTrees depth (operations operators parser) Q := by
  apply YieldsAt.chain hparser
  · intro first htree
    exact hfirst first.expression htree
  · exact yieldsAt_oneOfWords BinaryOperator.keyword operators
  · intro operator left right typed hmem hleft hright htyped
    rw [expression_of_binary htyped]
    exact hbinary operator hmem _ _ hleft hright

/-- A comparison is made once at most, so its operands are no comparisons. -/
theorem YieldsTrees.comparison (hadditive : YieldsTrees depth (additive scope owner inner) P)
    (hsingle : ∀ tree, P tree → Q tree)
    (hbinary : ∀ operator left right, P left → P right → Q (.binary operator left right)) :
    YieldsTrees depth (comparison scope owner inner) Q := by
  apply YieldsAt.bind hadditive
  intro left hleft
  apply (moves_oneOfWords _ _).bind_yieldsAt
  intro found
  cases found with
  | none => exact .pure (hsingle left.expression hleft)
  | some operator =>
    apply YieldsAt.bind hadditive
    intro right hright
    apply yieldsAt_ofExcept
    intro typed htyped
    rw [expression_of_binary htyped]
    exact hbinary operator _ _ hleft hright

/-- The operand of a negation is parsed one level further in. -/
theorem yieldsTrees_negation
    (hoperand : depth < scope.limits.expressionDepth → YieldsTrees (depth + 1) inner.operand P)
    (hnot : depth < scope.limits.expressionDepth → ∀ tree, P tree → Q (.not tree))
    (hcomparison : YieldsTrees depth (Grammar.comparison scope owner inner) Q) :
    YieldsTrees depth (negation scope owner inner) Q := by
  apply moves_current.bind_yieldsAt
  intro token
  split
  · apply YieldsAt.nested
    intro hbelow
    exact (hoperand hbelow).negated (hnot hbelow)
  · exact hcomparison

end Grammar

end ODataOptions.Expression
