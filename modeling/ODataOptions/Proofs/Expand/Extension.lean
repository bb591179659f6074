import ODataOptions.Expand.Read
import ODataOptions.Proofs.Expand.Mirrors
import ODataOptions.Proofs.Expression.Extension

/-!
# Expansions under an extended schema

A type that a schema lacks can be added to it without an effect on any text that does not name the type.
Every look-up of a parser begins at the type referred to, at the type of a member that was found, or at a
type that the text names, and none of these is the new one.  The known names are those of all other types.
-/

namespace ODataOptions

open ODataOptions.Parser

/-- The vocabulary in which every qualified name is a known one. -/
def QualifiedName.Spelled (known : QualifiedName → Prop) : Vocabulary := fun word =>
  word.kind = .qualifiedName → ∀ name ∈ QualifiedName.parse? word.text, known name

section Paths

variable {known : QualifiedName → Prop} {schema schema' : Schema} {owner : StructuredType}
  (hagree : schema.Agree known schema')

include hagree

/-! ## Casts -/

/-- A cast is accepted or refused alike, and leads to a known type again. -/
theorem StructuredType.agrees_parseCast? (howner : known owner.name) :
    Agrees (QualifiedName.Spelled known) (fun cast? => ∀ cast ∈ cast?, known cast.name)
      (owner.parseCast? schema) (owner.parseCast? schema') := by
  apply (yields_take? (by decide)).agrees.bind
  intro token? htoken
  cases token? with
  | none => exact .pure (by simp)
  | some token =>
    -- the look-up begins at the name that the token spells, so that name has to be a known one
    obtain ⟨hisA, hspelled⟩ := htoken token rfl
    have hknown := hspelled ((Token.isA_iff_kind_eq rfl).mp hisA)
    have hlookup : (QualifiedName.parse? token.text).bind (schema.type? owner.kind) =
        (QualifiedName.parse? token.text).bind (schema'.type? owner.kind) := by
      cases hparse : QualifiedName.parse? token.text with
      | none => rfl
      | some name => exact hagree.type? owner.kind name (hknown name hparse)
    dsimp only
    rw [← hlookup]
    cases hfound : (QualifiedName.parse? token.text).bind (schema.type? owner.kind) with
    | none => exact .throw _
    | some cast =>
      obtain ⟨name, hparse, htype⟩ := Option.bind_eq_some_iff.mp hfound
      have hcast : known cast.name := by
        rw [Schema.eq_of_type? htype]
        exact hknown name hparse
      dsimp only
      rw [← hagree.isCompatible cast owner hcast howner]
      split
      · apply Agrees.pure
        rintro _ ⟨⟩
        exact hcast
      · exact .throw _

/-! ## Selections -/

theorem SelectSegment.agrees_parseProperty {property : Property}
    (hproperty : ∀ type ∈ property.complexType?, known type.name) :
    Agrees (QualifiedName.Spelled known) (fun result => ∀ next ∈ result.2, known next.name)
      (parseProperty schema property) (parseProperty schema' property) := by
  rw [parseProperty, parseProperty]
  cases htype : property.complexType? with
  | none => exact .pure (by simp)
  | some type =>
    have hknown := hproperty type htype
    apply (moves_accept .slash).agrees.bind
    intro slash _
    split
    · apply (type.agrees_parseCast? hagree hknown).bind
      intro cast? hcast
      cases cast? with
      | none =>
        apply Agrees.pure
        rintro _ ⟨⟩
        exact hknown
      | some cast =>
        apply (moves_accept .slash).agrees.map
        intro goesOn _ next hnext
        cases goesOn with
        | false => cases hnext
        | true =>
          cases hnext
          exact hcast cast rfl
    · exact .pure (by simp)

theorem SelectSegment.agrees_parse (howner : known owner.name) :
    Agrees (QualifiedName.Spelled known) (fun result => ∀ next ∈ result.2, known next.name)
      (SelectSegment.parse schema owner) (SelectSegment.parse schema' owner) := by
  apply (moves_expect .identifier).agrees.bind
  intro token _
  rw [← hagree.property? owner token.text howner, ← hagree.navigation? owner token.text howner]
  cases hproperty : schema.property? owner token.text with
  | some property =>
    exact agrees_parseProperty hagree (hagree.complexType? owner _ howner property hproperty)
  | none =>
    cases schema.navigation? owner token.text with
    | none => exact .throw _
    | some navigation =>
      apply moves_current.agrees.bind
      intro slash _
      split
      · exact .failHere _
      · exact .pure (by simp)

theorem SelectItem.agrees_parse (howner : known owner.name) :
    Agrees (QualifiedName.Spelled known) (fun _ => True) (SelectItem.parse schema owner)
      (SelectItem.parse schema' owner) := by
  have hpath : ∀ {type : StructuredType}, known type.name →
      Agrees (QualifiedName.Spelled known) (fun _ => True) (unfold (SelectSegment.parse schema) type)
        (unfold (SelectSegment.parse schema') type) :=
    Agrees.unfold fun _ => SelectSegment.agrees_parse hagree
  apply (moves_accept .star).agrees.bind
  intro star _
  split
  · exact .pure trivial
  · apply (owner.agrees_parseCast? hagree howner).bind
    intro cast? hcast
    cases cast? with
    | none => exact (hpath howner).map fun _ _ => trivial
    | some cast =>
      apply (moves_expect .slash).agrees.bind
      intro _ _
      exact (hpath (hcast cast rfl)).map fun _ _ => trivial

/-- A new definition changes nothing about what is selected from a known type. -/
theorem Select.agrees_parse (howner : known owner.name) :
    Agrees (QualifiedName.Spelled known) (fun _ => True) (Select.parse schema owner)
      (Select.parse schema' owner) :=
  (SelectItem.agrees_parse hagree howner).separated .comma

/-! ## Paths -/

namespace PathSegment

theorem agrees_parseComplex? {path : Progress} (howner : known path.owner.name) :
    Agrees (QualifiedName.Spelled known) (fun next? => ∀ next ∈ next?, known next.owner.name)
      (parseComplex? schema path) (parseComplex? schema' path) := by
  apply moves_current.agrees.bind
  intro token _
  have hsame : complexProperty? schema path.owner token = complexProperty? schema' path.owner token := by
    rw [complexProperty?, complexProperty?, hagree.property? path.owner token.text howner]
  rw [← hsame]
  cases hfound : complexProperty? schema path.owner token with
  | none => exact .pure (by simp)
  | some found =>
    obtain ⟨property, type⟩ := found
    obtain ⟨-, hproperty, htype⟩ := complexProperty?_eq_some hfound
    have hknown := hagree.complexType? path.owner _ howner property hproperty type htype
    apply moves_next.agrees.bind
    intro _ _
    apply (moves_expect .slash).agrees.bind
    intro _ _
    apply (type.agrees_parseCast? hagree hknown).bind
    intro cast? hcast
    have hnext : known (cast?.getD type).name := by
      cases cast? with
      | none => exact hknown
      | some cast => exact hcast cast rfl
    split
    · apply (moves_expect .slash).agrees.map
      rintro _ _ _ ⟨⟩
      exact hnext
    · apply Agrees.pure
      rintro _ ⟨⟩
      exact hnext

/-- The target of a navigation property is looked up alike, and is known again. -/
theorem agrees_parseNavigation {path : Progress} (howner : known path.owner.name) (token : Token) :
    Agrees (QualifiedName.Spelled known) (fun target => known target.type.name)
      (parseNavigation schema path token) (parseNavigation schema' path token) := by
  rw [parseNavigation, parseNavigation, ← hagree.navigation? path.owner token.text howner]
  cases hfound : schema.navigation? path.owner token.text with
  | none => exact .throw _
  | some navigation =>
    have htarget := hagree.target path.owner _ howner navigation hfound
    apply (moves_accept .slash).agrees.bind
    intro slash _
    split
    · apply (navigation.targetType.agrees_parseCast? hagree htarget).map
      intro cast? hcast
      cases cast? with
      | none => exact htarget
      | some cast => exact hcast cast rfl
    · exact .pure htarget

theorem agrees_parsePath (howner : known owner.name) :
    Agrees (QualifiedName.Spelled known) (fun target => known target.type.name)
      (parsePath schema owner) (parsePath schema' owner) := by
  have hpath : Agrees (QualifiedName.Spelled known) (fun path => known path.owner.name)
      (iterate (parseComplex? schema) { owner }) (iterate (parseComplex? schema') { owner }) :=
    Agrees.iterate (fun _ => agrees_parseComplex? hagree) howner
  apply hpath.bind
  intro path hknown
  apply (moves_takeIf _).agrees.bind
  intro token? _
  cases token? with
  | some token => exact agrees_parseNavigation hagree hknown token
  | none =>
    apply (moves_accept .star).agrees.bind
    intro star _
    split
    · exact .pure hknown
    · exact (yields_unexpected _).agrees

end PathSegment

end Paths

/-! ## Options in parentheses -/

section Options

variable {Expansion : Type} {words : Vocabulary}
  {value value' : OptionKind → Parser (SystemOption Expansion)}
  (hvalue : ∀ kind, Agrees words (fun _ => True) (value kind) (value' kind)) (context : OptionContext)

include hvalue

namespace OptionSet

theorem agrees_parseOption (gathered : Gathered Expansion) :
    Agrees words (fun _ => True) (parseOption value context gathered)
      (parseOption value' context gathered) := by
  apply moves_current.agrees.bind
  intro keyword _
  split
  · exact .failHere _
  · apply moves_next.agrees.bind
    intro _ _
    apply (moves_expect .equals).agrees.bind
    intro _ _
    apply (hvalue _).bind
    intro option _
    split
    · exact .pure trivial
    · exact .throw _

theorem agrees_parse :
    Agrees words (fun _ => True) (parse value context) (parse value' context) := by
  have hlist : Agrees words (fun _ => True)
      (separatedFrom (parseOption value context) .semicolon {})
      (separatedFrom (parseOption value' context) .semicolon {}) := by
    apply Agrees.separatedFrom _ .semicolon trivial
    intro gathered _
    exact agrees_parseOption hvalue context gathered
  apply (moves_accept .openParen).agrees.bind
  intro opened _
  split
  · apply hlist.bind
    intro gathered _
    exact (moves_expect .closeParen).agrees.map fun _ _ => trivial
  · exact .pure trivial

end OptionSet

end Options

/-! ## Items -/

section Items

variable {known : QualifiedName → Prop} {scope : Scope} {schema' : Schema} {owner : StructuredType}
  {expansion expansion' : StructuredType → Parser Expand}
  (hagree : scope.schema.Agree known schema')
  (hexpansion : ∀ owner, known owner.name →
    Agrees (QualifiedName.Spelled known) (fun _ => True) (expansion owner) (expansion' owner))

include hagree hexpansion

theorem SystemOption.agrees_parseValue (howner : known owner.name) (kind : OptionKind) :
    Agrees (QualifiedName.Spelled known) (fun _ => True) (parseValue scope expansion owner kind)
      (parseValue (scope.withSchema schema') expansion' owner kind) := by
  cases kind with
  | expand => exact (hexpansion owner howner).map fun _ _ => trivial
  | select => exact (Select.agrees_parse hagree howner).map fun _ _ => trivial
  | filter =>
    rw [parseValue, parseValue, ← Expression.parseFilter_congr hagree howner]
    exact ((Expression.mirrors_parseFilter scope owner).moves.map _).agrees
  | orderBy =>
    rw [parseValue, parseValue, ← OrderBy.parse_congr hagree howner]
    exact ((OrderBy.mirrors_parse scope owner).moves.map _).agrees
  | count => exact (mirrors_truthValue.moves.map _).agrees
  | levels => exact (Levels.mirrors_parse.moves.map _).agrees
  | search => exact ((SearchExpression.mirrors_parse scope.limits).moves.map _).agrees
  | skip | top => exact ((mirrors_wholeNumber _ _).moves.map _).agrees

namespace ExpandItem

theorem agrees_parsePath (cast : Option StructuredType) (howner : known owner.name) :
    Agrees (QualifiedName.Spelled known) (fun _ => True) (parsePath scope expansion cast owner)
      (parsePath (scope.withSchema schema') expansion' cast owner) := by
  apply (PathSegment.agrees_parsePath hagree howner).bind
  intro target htarget
  apply (PathSegment.mirrors_parseSuffix target.slash).moves.agrees.bind
  rintro ⟨suffix, context⟩ _
  have hvalue := SystemOption.agrees_parseValue hagree hexpansion htarget
  exact (OptionSet.agrees_parse hvalue context).map fun _ _ => trivial

theorem agrees_parse (howner : known owner.name) :
    Agrees (QualifiedName.Spelled known) (fun _ => True) (parse scope expansion owner)
      (parse (scope.withSchema schema') expansion' owner) := by
  apply (moves_accept .star).agrees.bind
  intro star _
  split
  · exact mirrors_parseStar.moves.agrees
  · apply (owner.agrees_parseCast? hagree howner).bind
    intro cast? hcast
    cases cast? with
    | none => exact agrees_parsePath hagree hexpansion none howner
    | some cast =>
      apply (moves_expect .slash).agrees.bind
      intro _ _
      exact agrees_parsePath hagree hexpansion cast (hcast cast rfl)

end ExpandItem

omit hexpansion in
/-- Both schemas parse the same expansions of a known type, at every number of levels. -/
theorem Expand.agrees_parseWithin (levels : Nat) (howner : known owner.name) :
    Agrees (QualifiedName.Spelled known) (fun _ => True) (parseWithin scope levels owner)
      (parseWithin (scope.withSchema schema') levels owner) := by
  induction levels generalizing owner with
  | zero => exact .failHere _
  | succ levels ih => exact (ExpandItem.agrees_parse hagree (fun _ => ih) howner).separated .comma

end Items

/-! ## Texts -/

namespace Expand

/-- A type that nothing in the schema refers to, and that the text does not name, can be added without
an effect on what the text is read as, be it an expansion or a fault. -/
theorem read_insert (schema : Schema) (definition : TypeDefinition) (owner : StructuredType)
    (source : String) (hlacks : schema.Lacks definition.name) (howner : owner.name ≠ definition.name)
    (hunnamed : ∀ token ∈ tokens source, token.kind = .qualifiedName →
      QualifiedName.parse? token.text ≠ some definition.name) :
    Expand.read (schema.insert definition) owner source = Expand.read schema owner source := by
  have hover : (Cursor.ofTokens (tokens source)).Over
      (QualifiedName.Spelled (· ≠ definition.name)) := by
    rintro token htoken - hkind name hname rfl
    exact hunnamed token htoken hkind hname
  have hagree : (Scope.schema { schema }).Agree (· ≠ definition.name) (schema.insert definition) :=
    hlacks.agree_insert
  have hparse := Expand.agrees_parseWithin hagree ({} : Limits).expandDepth howner
  exact (hparse.onText_eq .expand hover).symm

def shopInvoice : TypeDefinition :=
  { name := ⟨"Shop", "Invoice"⟩, kind := .entity, base := some ⟨"Shop", "Order"⟩ }

theorem read_insert_shop :
    Schema.shop.Lacks shopInvoice.name ∧
    (∃ expand, Expand.read .shop .shopCustomer "Orders/Shop.UrgentOrder($top=2)" = .ok expand ∧
      Expand.read (Schema.shop.insert shopInvoice) .shopCustomer "Orders/Shop.UrgentOrder($top=2)" =
        .ok expand) ∧
    ∃ fault, Expand.read .shop .shopCustomer "Orders/Shop.Refund" = .error fault ∧
      Expand.read (Schema.shop.insert shopInvoice) .shopCustomer "Orders/Shop.Refund" =
        .error fault := by
  have hlacks : Schema.shop.Lacks shopInvoice.name := by
    constructor <;> decide
  have howner : StructuredType.shopCustomer.name ≠ shopInvoice.name := by decide
  refine ⟨hlacks, ?_, ?_⟩
  · obtain ⟨expand, hread⟩ := Fault.exists_ok_of_isOk (by decide +kernel : (Expand.read .shop
      .shopCustomer "Orders/Shop.UrgentOrder($top=2)").isOk = true)
    refine ⟨expand, hread, ?_⟩
    rw [← hread]
    exact read_insert .shop shopInvoice .shopCustomer _ hlacks howner (by decide +kernel)
  · obtain ⟨fault, hread⟩ := Fault.exists_error_of_isOk (by decide +kernel : (Expand.read .shop
      .shopCustomer "Orders/Shop.Refund").isOk = false)
    refine ⟨fault, hread, ?_⟩
    rw [← hread]
    exact read_insert .shop shopInvoice .shopCustomer _ hlacks howner (by decide +kernel)

end Expand

end ODataOptions
