import ODataOptions.OrderBy.Parser
import ODataOptions.Expression.Filter
import ODataOptions.Proofs.Parser.Agrees
import ODataOptions.Proofs.Schema.Extension

/-!
# Expressions under an extended schema

The names in an expression are those of members, so where two schemas agree on the type that they are
resolved from, every expression is parsed alike.  No type is named in an expression, so its words do not
matter.
-/

namespace ODataOptions

open ODataOptions.Parser

def Scope.withSchema (scope : Scope) (schema : Schema) : Scope := { scope with schema }

variable {known : QualifiedName → Prop} {scope : Scope} {schema' : Schema} {owner : StructuredType}

namespace Expression.Grammar

/-- Behind a member that leads to known types, the path goes on from one of these. -/
theorem agrees_continued {words : Vocabulary} {member : Member}
    (hmember : ∀ type ∈ member.type?, known type.name) :
    Agrees words (fun result => ∀ next ∈ result.2, known next.name)
      (memberSegment.continued member) (memberSegment.continued member) := by
  rw [memberSegment.continued]
  cases hnext : next? member with
  | none => exact .pure (by simp)
  | some type =>
    have htype : type ∈ member.type? := by
      rw [next?] at hnext
      split at hnext
      · cases hnext
      · exact hnext
    apply (moves_accept .slash).agrees.map
    intro more _ next hmore
    cases more with
    | false => cases hmore
    | true =>
      cases hmore
      exact hmember type htype

variable (hagree : scope.schema.Agree known schema')

include hagree

theorem agrees_memberSegment {words : Vocabulary} (howner : known owner.name) :
    Agrees words (fun result => ∀ next ∈ result.2, known next.name)
      (memberSegment scope owner) (memberSegment (scope.withSchema schema') owner) := by
  apply (moves_expect .identifier).agrees.bind
  intro token _
  dsimp only [Scope.withSchema]
  rw [← hagree.property? owner token.text howner, ← hagree.navigation? owner token.text howner]
  cases hproperty : scope.schema.property? owner token.text with
  | some property => exact agrees_continued (hagree.complexType? owner _ howner property hproperty)
  | none =>
    cases hnavigation : scope.schema.navigation? owner token.text with
    | none => exact .throw _
    | some navigation =>
      dsimp only
      split
      · exact .throw _
      · apply agrees_continued
        rintro _ ⟨⟩
        exact hagree.target owner _ howner navigation hnavigation

/-- A path from a known type meets known types only. -/
theorem memberPath_congr (howner : known owner.name) :
    memberPath scope owner = memberPath (scope.withSchema schema') owner := by
  have hpath : unfold (memberSegment scope) owner =
      unfold (memberSegment (scope.withSchema schema')) owner := by
    funext cursor
    exact (Agrees.unfold (fun _ => agrees_memberSegment hagree) howner).same cursor.over_univ
  rw [memberPath, memberPath, hpath]

theorem primary_congr (howner : known owner.name) (inner : Grammar) :
    primary scope owner inner = primary (scope.withSchema schema') owner inner := by
  have hnamed : named scope owner inner = named (scope.withSchema schema') owner inner := by
    rw [named, named, memberPath_congr hagree howner]
    rfl
  rw [primary, primary, hnamed]
  rfl

theorem negation_congr (howner : known owner.name) (inner : Grammar) :
    negation scope owner inner = negation (scope.withSchema schema') owner inner := by
  have hadditive : additive scope owner inner = additive (scope.withSchema schema') owner inner := by
    rw [additive, additive, multiplicative, multiplicative, primary_congr hagree howner]
  rw [negation, negation, comparison, comparison, hadditive]
  rfl

theorem ofLevels_congr (howner : known owner.name) (levels : Nat) :
    ofLevels scope owner levels = ofLevels (scope.withSchema schema') owner levels := by
  induction levels with
  | zero => rfl
  | succ levels ih =>
    rw [ofLevels, ofLevels, ih]
    simp only [disjunction, conjunction, negation_congr hagree howner]

end Expression.Grammar

section

variable (hagree : scope.schema.Agree known schema')

include hagree

theorem Expression.parse_congr (howner : known owner.name) :
    Expression.parse scope owner = Expression.parse (scope.withSchema schema') owner := by
  rw [Expression.parse, Expression.parse, Grammar.ofLevels_congr hagree howner]
  rfl

theorem Expression.parseFilter_congr (howner : known owner.name) :
    Expression.parseFilter scope owner = Expression.parseFilter (scope.withSchema schema') owner := by
  rw [Expression.parseFilter, Expression.parseFilter, Expression.parse_congr hagree howner]

theorem OrderBy.parse_congr (howner : known owner.name) :
    OrderBy.parse scope owner = OrderBy.parse (scope.withSchema schema') owner := by
  rw [OrderBy.parse, OrderBy.parse, OrderByItem.parse, OrderByItem.parse,
    Expression.parse_congr hagree howner]

end

end ODataOptions
