import ODataOptions.Expression.Filter
import ODataOptions.OrderBy.Parser
import ODataOptions.Proofs.Expression.Plain

/-!
# Filters and sort keys

A filter is an expression that is true or false, as far as its class is known, and the value of a sort
key is not structured.  Neither of them is a path that looks like a negation.
-/

namespace ODataOptions

open ODataOptions.Parser

section

variable (scope : Scope) (owner : StructuredType) (words : Vocabulary)

/-- An expression that is true or false, as far as its class is known. -/
def Expression.IsFilter (filter : Expression) : Prop :=
  (∃ type, HasType scope owner filter type ∧ type.Suits .boolean) ∧ filter.Spelled words ∧
    ¬ filter.LooksNegated

/-- An expression whose value is not structured. -/
def Expression.IsKey (key : Expression) : Prop :=
  (∃ type, HasType scope owner key type ∧ type ≠ .structured) ∧ key.Spelled words ∧
    ¬ key.LooksNegated

/-- What is parsed is well typed and spelled, and does not look negated. -/
theorem Expression.yields_parse :
    Yields words (Expression.parse scope owner) fun typed =>
      HasType scope owner typed.expression typed.type ∧ typed.expression.Spelled words ∧
        ¬ typed.expression.LooksNegated := by
  intro cursor typed rest hover hrun
  obtain ⟨⟨htype, hspelled⟩, hrest⟩ := (Grammar.sound_ofLevels scope owner words _).whole hover hrun
  exact ⟨⟨htype, hspelled, Grammar.plainAt_ofLevels scope owner _ cursor typed rest hrun⟩, hrest⟩

theorem Expression.yields_parseFilter :
    Yields words (Expression.parseFilter scope owner) (Expression.IsFilter scope owner words) := by
  apply (Expression.yields_parse scope owner words).bind
  intro filter hfilter
  split
  · next haccepts =>
    exact .pure ⟨⟨filter.type, hfilter.1, ExpressionType.accepts_iff.mp haccepts⟩, hfilter.2⟩
  · exact yields_throw _

/-- There is at least one sort key, and none is structured. -/
theorem OrderBy.yields_parse :
    Yields words (OrderBy.parse scope owner) fun keys =>
      keys ≠ [] ∧ ∀ key ∈ keys, key.expression.IsKey scope owner words := by
  refine Yields.separated ?_ .comma
  apply (Expression.yields_parse scope owner words).bind
  intro key hkey
  split
  · exact yields_throw _
  · next hplain =>
    exact (yields_oneOfWords _ _).map fun _ _ => ⟨⟨key.type, hkey.1, hplain⟩, hkey.2⟩

end

/-- From any tokens, the parser yields only expressions that the judgement types, with the class that
it assigns to them.  So filters are true or false as far as their class is known, and the values of
sort keys are not structured. -/
theorem Expression.hasType_of_parse (scope : Scope) (owner : StructuredType) (cursor : Cursor) :
    (∀ typed rest, Expression.parse scope owner cursor = .ok typed rest →
      HasType scope owner typed.expression typed.type ∧
        ∀ type, HasType scope owner typed.expression type → type = typed.type) ∧
    (∀ filter rest, Expression.parseFilter scope owner cursor = .ok filter rest →
      HasType scope owner filter .boolean ∨ HasType scope owner filter .untyped) ∧
    (∀ keys rest, OrderBy.parse scope owner cursor = .ok keys rest → ∀ key ∈ keys,
      (∃ type, HasType scope owner key.expression type) ∧
        ¬ HasType scope owner key.expression .structured) := by
  have hover := cursor.over_univ
  refine ⟨fun typed rest hrun => ?_, fun filter rest hrun => ?_, fun keys rest hrun key hkey => ?_⟩
  · obtain ⟨⟨htype, -, -⟩, -⟩ := Expression.yields_parse scope owner _ hover hrun
    exact ⟨htype, fun _ hother => htype.unique hother⟩
  · obtain ⟨⟨⟨type, htype, hsuits⟩, -⟩, -⟩ := Expression.yields_parseFilter scope owner _ hover hrun
    rcases hsuits with rfl | rfl
    · exact .inl htype
    · exact .inr htype
  · obtain ⟨⟨-, hkeys⟩, -⟩ := OrderBy.yields_parse scope owner _ hover hrun
    obtain ⟨⟨type, htype, hplain⟩, -⟩ := hkeys key hkey
    exact ⟨⟨type, htype⟩, fun hstructured => hplain (hstructured.unique htype)⟩

theorem Expression.hasType_of_parse_shop :
    (∃ filter rest, Expression.parseFilter { schema := .shop } .shopCustomer
        (.ofTokens (tokens "Age add 2 gt 3 and Address/City eq null")) = .ok filter rest ∧
      HasType { schema := .shop } .shopCustomer filter .boolean) ∧
    ∃ keys rest, OrderBy.parse { schema := .shop } .shopCustomer
        (.ofTokens (tokens "length(Name) desc,Age")) = .ok keys rest ∧
      keys.length = 2 ∧ ∀ key ∈ keys,
        ¬ HasType { schema := .shop } .shopCustomer key.expression .structured := by
  obtain ⟨htyped, -⟩ := Expression.hasType_of_parse { schema := .shop } .shopCustomer
    (.ofTokens (tokens "Age add 2 gt 3 and Address/City eq null"))
  obtain ⟨-, -, hkeys⟩ := Expression.hasType_of_parse { schema := .shop } .shopCustomer
    (.ofTokens (tokens "length(Name) desc,Age"))
  refine ⟨⟨_, _, rfl, (htyped _ _ rfl).1⟩, _, _, rfl, rfl, fun key hkey => ?_⟩
  exact (hkeys _ _ rfl key hkey).2

end ODataOptions
