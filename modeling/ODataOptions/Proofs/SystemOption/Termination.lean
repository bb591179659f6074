import ODataOptions.Proofs.Expand.Recursion
import ODataOptions.Proofs.Expression.Recursion
import ODataOptions.Proofs.Search.Recursion
import ODataOptions.Proofs.Select.Recursion

/-!
# Parsers come to an end

The parsers of expansions, expressions, filters, sort keys, searches and selections return from any
cursor, whether an end of the input stands among its tokens or not, and whatever the types of the schema
derive from.  Their rounds and their calls of one another come behind consumed tokens or go down the
precedences.  Where they succeed, they have moved the cursor on.
-/

namespace ODataOptions

open ODataOptions.Parser

/-! ## Moving on -/

namespace Parser

variable {α : Type} {parser : Parser α}

/-- Where the parser succeeds, it leaves the cursor between the same tokens at a later position. -/
def Advances (parser : Parser α) : Prop :=
  ∀ ⦃cursor value rest⦄, parser cursor = .ok value rest →
    rest.tokens = cursor.tokens ∧ cursor.position < rest.position

/-- A parser that consumes a token of those ahead stands at a later position. -/
theorem Consumes.advances (hconsumes : Consumes parser) (hmoves : Moves parser) : Advances parser := by
  intro cursor value rest hrun
  have hreaches := hmoves.reaches hrun
  exact ⟨hreaches.tokens_eq, hreaches.position_lt (hconsumes hrun)⟩

end Parser

section

variable (scope : Scope) (owner : StructuredType)

theorem Expression.family_disjunction :
    Grammar.family scope owner (.operand .disjunction) = Expression.parse scope owner :=
  Grammar.parser_full_disjunction scope owner

theorem Expression.consumes_parse : Consumes (Expression.parse scope owner) := by
  rw [← Expression.family_disjunction]
  exact Grammar.consumes_full scope owner .disjunction

theorem Expression.advances_parse : Advances (Expression.parse scope owner) :=
  (Expression.consumes_parse scope owner).advances (Expression.mirrors_parse scope owner).moves

theorem Expression.advances_parseFilter : Advances (Expression.parseFilter scope owner) := by
  have hconsumes : Consumes (Expression.parseFilter scope owner) := by
    apply (Expression.consumes_parse scope owner).bind
    intro filter
    split
    · exact moves_pure _
    · exact moves_throw _
  exact hconsumes.advances (Expression.mirrors_parseFilter scope owner).moves

theorem OrderByItem.consumes_parse : Consumes (OrderByItem.parse scope owner) := by
  have hdirection (key : TypedExpression) : Moves (do
      let descending := (← oneOfWords (if · then "desc" else "asc") [true, false]).getD false
      return { expression := key.expression, descending : OrderByItem }) :=
    (moves_oneOfWords _ _).map _
  apply (Expression.consumes_parse scope owner).bind
  intro key
  split
  · apply (moves_throw _).bind
    intro _
    exact hdirection key
  · exact hdirection key

theorem OrderBy.advances_parse : Advances (OrderBy.parse scope owner) := by
  have hkeys : Consumes (OrderBy.parse scope owner) :=
    (OrderByItem.consumes_parse scope owner).separated (OrderByItem.mirrors_parse scope owner).moves .comma
  exact hkeys.advances (OrderBy.mirrors_parse scope owner).moves

theorem SearchExpression.family_disjunction (limits : Limits) :
    Grammar.family limits .disjunction = SearchExpression.parse limits :=
  congrArg Grammar.whole (Grammar.called_family limits)

theorem SearchExpression.advances_parse (limits : Limits) : Advances (SearchExpression.parse limits) := by
  have hconsumes : Consumes (SearchExpression.parse limits) := by
    rw [← SearchExpression.family_disjunction]
    exact Grammar.consumes_disjunction limits
  exact hconsumes.advances (SearchExpression.mirrors_parse limits).moves

theorem Select.advances_parse (schema : Schema) : Advances (Select.parse schema owner) :=
  (Select.consumes_parse schema owner).advances (Select.mirrors_parse schema owner).moves

theorem Expand.advances_parseWithin (levels : Nat) :
    Advances (Expand.parseWithin scope levels owner) :=
  (Expand.consumes_parseWithin scope levels owner).advances
    (Expand.mirrors_parseWithin scope levels owner).moves

/-- The parsers return, and each of their loops and calls makes progress.  Where they succeed, so has the
cursor. -/
theorem parsers_terminate :
    (Terminates Expression.Grammar.Rule.rung (Expression.Grammar.body scope owner) (.operand .disjunction)
        (Expression.parse scope owner) ∧
      Advances (Expression.parse scope owner)) ∧
    (Terminates Expression.Grammar.Rule.rung (Expression.Grammar.body scope owner) .filter
        (Expression.parseFilter scope owner) ∧
      Advances (Expression.parseFilter scope owner)) ∧
    (Terminates Expression.Grammar.Rule.rung (Expression.Grammar.body scope owner) .keys
        (OrderBy.parse scope owner) ∧
      Advances (OrderBy.parse scope owner)) ∧
    (Terminates SearchExpression.Grammar.Rule.rung (SearchExpression.Grammar.body scope.limits) .disjunction
        (SearchExpression.parse scope.limits) ∧
      Advances (SearchExpression.parse scope.limits)) ∧
    (Terminates Select.Rule.rung (Select.body scope.schema owner) .items
        (Select.parse scope.schema owner) ∧
      Advances (Select.parse scope.schema owner)) ∧
    ∀ levels,
      Terminates Expand.Rule.rung (Expand.body scope) (.items levels owner)
          (Expand.parseWithin scope levels owner) ∧
        Advances (Expand.parseWithin scope levels owner) := by
  have hexpression := Expression.Grammar.descends_family scope owner
  have hsearch := SearchExpression.Grammar.descends_family scope.limits
  have hselect := Select.descends_family scope.schema owner
  have hexpand := Expand.descends_family scope
  refine ⟨⟨?_, Expression.advances_parse scope owner⟩, ⟨?_, Expression.advances_parseFilter scope owner⟩,
    ⟨?_, OrderBy.advances_parse scope owner⟩, ⟨?_, SearchExpression.advances_parse scope.limits⟩,
    ⟨?_, Select.advances_parse owner scope.schema⟩,
    fun levels => ⟨?_, Expand.advances_parseWithin scope owner levels⟩⟩
  · exact hexpression.terminates Expression.Grammar.Rule.rung_lt
      (Expression.family_disjunction scope owner)
  · exact hexpression.terminates Expression.Grammar.Rule.rung_lt rfl
  · exact hexpression.terminates Expression.Grammar.Rule.rung_lt rfl
  · exact hsearch.terminates SearchExpression.Grammar.Rule.rung_lt
      (SearchExpression.family_disjunction scope.limits)
  · exact hselect.terminates Select.Rule.rung_lt rfl
  · exact hexpand.terminates Expand.Rule.rung_lt rfl

end

end ODataOptions
