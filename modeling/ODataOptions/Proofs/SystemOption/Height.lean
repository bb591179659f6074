import ODataOptions.Proofs.Expression.Height
import ODataOptions.Proofs.Search.Height

/-!
# The limit of levels and the trees

The limit of levels is there for the trees of expressions and searches, which are gone through by recursion.
It counts parentheses, negations and calls, and not the operators between operands of one chain.
-/

namespace ODataOptions

open ODataOptions.Parser

/-- Whatever is parsed has a height that the limit bounds, where a chain of binary operators of one
precedence, other than comparisons, counts once. -/
theorem nesting_le_of_parse (scope : Scope) (owner : StructuredType) (cursor : Cursor) :
    (∀ typed rest, Expression.parse scope owner cursor = .ok typed rest →
      typed.expression.nesting ≤ 6 * (scope.limits.expressionDepth + 1)) ∧
    ∀ search rest, SearchExpression.parse scope.limits cursor = .ok search rest →
      search.nesting ≤ 3 * (scope.limits.expressionDepth + 1) := by
  constructor
  · intro typed rest hrun
    have hnesting : typed.expression.nesting ≤ _ :=
      (Expression.yieldsTrees_parse_nesting scope owner cursor.depth).of_ok hrun
    omega
  · intro search rest hrun
    have hnesting : search.nesting ≤ _ :=
      (SearchExpression.yieldsAt_parse_nesting scope.limits cursor.depth).of_ok hrun
    omega

/-- Where no level may be opened, four operands still make four nodes on top of one another. -/
theorem nesting_le_of_parse_chain :
    (∃ typed rest, Expression.parse { schema := .shop, limits := { expressionDepth := 0 } }
        .shopCustomer (.ofTokens (tokens "1 add 1 sub 1 add 1")) = .ok typed rest ∧
      typed.expression.height = 4 ∧ typed.expression.nesting ≤ 6) ∧
    ∃ search rest, SearchExpression.parse { expressionDepth := 0 } (.ofTokens (tokens "a b c d")) =
        .ok search rest ∧ search.height = 4 ∧ search.nesting ≤ 3 := by
  obtain ⟨hexpression, -⟩ := nesting_le_of_parse { schema := .shop, limits := { expressionDepth := 0 } }
    .shopCustomer (.ofTokens (tokens "1 add 1 sub 1 add 1"))
  obtain ⟨-, hsearch⟩ := nesting_le_of_parse { schema := .shop, limits := { expressionDepth := 0 } }
    .shopCustomer (.ofTokens (tokens "a b c d"))
  exact ⟨⟨_, _, rfl, rfl, hexpression _ _ rfl⟩, _, _, rfl, rfl, hsearch _ _ rfl⟩

/-- No function of the limit bounds the heights themselves, neither those of expressions nor those of
searches. -/
theorem height_not_bounded :
    (¬ ∃ bound : Nat → Nat, ∀ (scope : Scope) (owner : StructuredType) (tokens : List Token)
      (typed : TypedExpression), (Expression.parse scope owner).onTokens tokens = .ok typed →
        typed.expression.height ≤ bound scope.limits.expressionDepth) ∧
    ¬ ∃ bound : Nat → Nat, ∀ (limits : Limits) (tokens : List Token) (search : SearchExpression),
      (SearchExpression.parse limits).onTokens tokens = .ok search →
        search.height ≤ bound limits.expressionDepth := by
  constructor
  · rintro ⟨bound, hbound⟩
    obtain ⟨tokens, typed, hrun, hheight⟩ :=
      Expression.exists_parse_sum { schema := .shop } .shopCustomer (bound 32)
    have hle := hbound { schema := .shop } .shopCustomer tokens typed hrun
    rw [hheight] at hle
    exact Nat.not_succ_le_self _ hle
  · rintro ⟨bound, hbound⟩
    obtain ⟨tokens, hrun⟩ := SearchExpression.exists_parse_repeated {} (bound 32)
    have hle := hbound {} tokens _ hrun
    rw [SearchExpression.height_repeated] at hle
    exact Nat.not_succ_le_self _ hle

end ODataOptions
