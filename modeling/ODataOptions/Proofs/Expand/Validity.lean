import ODataOptions.Proofs.SystemOption.Validity

/-!
# Valid expansions

The path of an item goes through complex properties to a navigation property or a star, where each
cast narrows the type that the path has come to.  The options of the item are valid for the type that
the path ends at, and of kinds that its suffix allows.  An expansion among them is valid in turn, and
one level further in.
-/

namespace ODataOptions

open ODataOptions.Parser

/-- The steps that end the path of an item with options of this context. -/
def OptionContext.suffix : OptionContext → List PathSegment
  | .plain => []
  | .references => [.ref]
  | .counting => [.count]

namespace PathSegment

variable (schema : Schema) (words : Vocabulary)

/-- A path through complex properties from one type to another. -/
inductive Passes : StructuredType → List PathSegment → StructuredType → Prop
  | nil (owner : StructuredType) : Passes owner [] owner
  | cons {owner type last : StructuredType} {property : Property} {cast : Option StructuredType}
      {path : List PathSegment} (hfound : schema.property? owner property.name = some property)
      (hword : words ⟨.identifier, property.name⟩) (htype : property.complexType? = some type)
      (hcast : ∀ narrowed ∈ cast, type.CastsTo schema words narrowed)
      (hpath : Passes (cast.getD type) path last) :
      Passes owner (.complex property cast :: path) last

/-- A path through complex properties that ends with a navigation property, or at a star, and the
type that it arrives at.  The name of the navigation property is not that of a complex property.  A
single entity and the members of a collection are narrowed in different ways. -/
inductive Arrives : StructuredType → List PathSegment → Bool → StructuredType → Prop
  | navigation {owner last : StructuredType} {path : List PathSegment} {target : Navigation}
      {entityCast collectionCast : Option StructuredType} (hpath : Passes schema words owner path last)
      (hplain : ∀ property, schema.property? last target.name = some property →
        property.complexType? = none)
      (hfound : schema.navigation? last target.name = some target)
      (hword : words ⟨.identifier, target.name⟩)
      (hentity : entityCast ≠ none → target.collection = false)
      (hcollection : collectionCast ≠ none → target.collection = true)
      (hcast : ∀ narrowed ∈ entityCast <|> collectionCast,
        target.targetType.CastsTo schema words narrowed) :
      Arrives owner (path ++ [.navigation target entityCast collectionCast]) false
        ((entityCast <|> collectionCast).getD target.targetType)
  | star {owner last : StructuredType} {path : List PathSegment}
      (hpath : Passes schema words owner path last) : Arrives owner path true last

variable {schema words}

theorem Passes.append {owner middle last : StructuredType} {path rest : List PathSegment}
    (hpath : Passes schema words owner path middle) (hrest : Passes schema words middle rest last) :
    Passes schema words owner (path ++ rest) last := by
  induction hpath with
  | nil => exact hrest
  | cons hfound hword htype hcast _ ih => exact .cons hfound hword htype hcast (ih hrest)

end PathSegment

section

variable (scope : Scope) (words : Vocabulary)

/-- An item is valid for entities of the type `owner`, where `nested` says which expansions are.  A
star stands alone only where nothing is before it, and then it has no options but a suffix or a
number of levels. -/
inductive ExpandItem.Valid (nested : StructuredType → Expand → Prop) (owner : StructuredType) :
    ExpandItem → Prop
  | star {ref : Bool} {levels : Option Levels} (honce : ref = true → levels = none)
      (hlevels : ∀ count ∈ levels, count.Valid) : Valid nested owner (.star ref levels)
  | path {cast : Option StructuredType} {path : List PathSegment} {star : Bool}
      {last : StructuredType} {context : OptionContext} {options : OptionSet Expand}
      (hcast : ∀ narrowed ∈ cast, owner.CastsTo scope.schema words narrowed)
      (hpath : PathSegment.Arrives scope.schema words (cast.getD owner) path star last)
      (hstar : star = true → cast ≠ none ∨ path ≠ [])
      (hoptions : options.Valid scope words nested last context) :
      Valid nested owner (.path cast (path ++ context.suffix) star options)

/-- An expansion of at most `levels` levels is valid for entities of the type `owner`. -/
def Expand.ValidWithin : Nat → StructuredType → Expand → Prop
  | 0, _, _ => False
  | levels + 1, owner, expand =>
    expand ≠ [] ∧ ∀ item ∈ expand, item.Valid scope words (ValidWithin levels) owner

end

section Monotone

variable {scope : Scope} {words : Vocabulary} {owner : StructuredType}

theorem ExpandItem.Valid.mono {nested nested' : StructuredType → Expand → Prop} {item : ExpandItem}
    (hitem : item.Valid scope words nested owner)
    (hnested : ∀ owner expand, nested owner expand → nested' owner expand) :
    item.Valid scope words nested' owner := by
  cases hitem with
  | star honce hlevels => exact .star honce hlevels
  | path hcast hpath hstar hoptions => exact .path hcast hpath hstar (hoptions.mono hnested)

/-- Where more levels are allowed, an expansion remains valid. -/
theorem Expand.ValidWithin.mono {levels more : Nat} {expand : Expand}
    (hexpand : expand.ValidWithin scope words levels owner) (hle : levels ≤ more) :
    expand.ValidWithin scope words more owner := by
  induction levels generalizing more owner expand with
  | zero => exact hexpand.elim
  | succ levels ih =>
    obtain ⟨more, rfl⟩ := Nat.exists_eq_add_of_le' hle
    exact ⟨hexpand.1, fun item hmem => (hexpand.2 item hmem).mono fun _ _ hnested =>
      ih hnested (Nat.le_add_left levels more)⟩

end Monotone

end ODataOptions
