import ODataOptions.Proofs.Schema.Casts
import ODataOptions.Select.Parser

/-!
# Valid selections

A selected path resolves from the type that it begins at, and each step goes on from the type that
the step before it has come to.
-/

namespace ODataOptions

open ODataOptions.Parser

namespace SelectSegment

variable {schema : Schema} {words : Vocabulary}

/-- A path of members from the type `owner`, whose names are words of the vocabulary.  A navigation
property ends it, and only a complex property can be narrowed or gone on from. -/
inductive PathResolves (schema : Schema) (words : Vocabulary) :
    StructuredType → List SelectSegment → Prop
  | property {owner : StructuredType} {property : Property}
      (hfound : schema.property? owner property.name = some property)
      (hword : words ⟨.identifier, property.name⟩) :
      PathResolves schema words owner [{ member := .property property }]
  | narrowed {owner type cast : StructuredType} {property : Property}
      (hfound : schema.property? owner property.name = some property)
      (hword : words ⟨.identifier, property.name⟩) (htype : property.complexType? = some type)
      (hcast : type.CastsTo schema words cast) :
      PathResolves schema words owner [{ member := .property property, cast := some cast }]
  | navigation {owner : StructuredType} {navigation : Navigation}
      (hfree : schema.property? owner navigation.name = none)
      (hfound : schema.navigation? owner navigation.name = some navigation)
      (hword : words ⟨.identifier, navigation.name⟩) :
      PathResolves schema words owner [{ member := .navigation navigation }]
  | step {owner type : StructuredType} {property : Property} {cast : Option StructuredType}
      {path : List SelectSegment} (hfound : schema.property? owner property.name = some property)
      (hword : words ⟨.identifier, property.name⟩) (htype : property.complexType? = some type)
      (hcast : ∀ narrowed ∈ cast, type.CastsTo schema words narrowed)
      (hpath : PathResolves schema words (cast.getD type) path) :
      PathResolves schema words owner ({ member := .property property, cast } :: path)

/-- A step makes a path by itself, and also before a path from the type that it leads to. -/
def Continues (schema : Schema) (words : Vocabulary) (owner : StructuredType)
    (result : SelectSegment × Option StructuredType) : Prop :=
  PathResolves schema words owner [result.1] ∧
    ∀ type ∈ result.2, ∀ path, PathResolves schema words type path →
      PathResolves schema words owner (result.1 :: path)

/-- A property is gone on from only if it is complex. -/
theorem yields_parseProperty {owner : StructuredType} {property : Property}
    (hfound : schema.property? owner property.name = some property)
    (hword : words ⟨.identifier, property.name⟩) :
    Yields words (parseProperty schema property) (Continues schema words owner) := by
  have hplain := PathResolves.property hfound hword
  rw [parseProperty]
  cases htype : property.complexType? with
  | none => exact .pure ⟨hplain, by simp⟩
  | some type =>
    apply (yields_accept .slash).bind
    intro slash _
    cases slash with
    | false => exact .pure ⟨hplain, by simp⟩
    | true =>
      apply type.yields_parseCast?.bind
      intro cast? hcast
      cases cast? with
      | none =>
        refine .pure ⟨hplain, fun next hnext path hpath => ?_⟩
        obtain rfl := Option.mem_some.mp hnext
        exact .step hfound hword htype (by simp) hpath
      | some cast =>
        apply (yields_accept .slash).bind
        intro more _
        refine .pure ?_
        refine ⟨.narrowed hfound hword htype (hcast cast rfl), fun next hnext path hpath => ?_⟩
        cases more with
        | false => cases hnext
        | true =>
          obtain rfl := Option.mem_some.mp hnext
          exact .step hfound hword htype hcast hpath

theorem yields_parse (owner : StructuredType) :
    Yields words (parse schema owner) (Continues schema words owner) := by
  apply (yields_expect (by decide)).bind
  intro token htoken
  obtain ⟨hisA, hword⟩ := htoken
  have hkind : token.kind = .identifier := (Token.isA_iff_kind_eq rfl).mp hisA
  rw [Token.word, hkind] at hword
  cases hproperty : schema.property? owner token.text with
  | some property =>
    have hname := Schema.name_of_property? hproperty
    rw [← hname] at hproperty hword
    exact yields_parseProperty hproperty hword
  | none =>
    cases hnavigation : schema.navigation? owner token.text with
    | none => exact yields_throw _
    | some navigation =>
      have hname := Schema.name_of_navigation? hnavigation
      rw [← hname] at hproperty hnavigation hword
      apply yields_current.bind
      intro token _
      split
      · exact yields_failHere _
      · exact .pure ⟨.navigation hproperty hnavigation hword, by simp⟩

/-- A path resolves, by induction on the steps behind the first one. -/
theorem yields_path (owner : StructuredType) :
    Yields words (unfold (parse schema) owner) (PathResolves schema words owner) := by
  apply (yields_unfold (L := fun owner path => path ≠ [] → PathResolves schema words owner path)
    _ (by simp) owner).mono fun path hpath => hpath.2 hpath.1
  intro owner
  apply (yields_parse owner).mono
  intro result hresult
  obtain ⟨segment, next?⟩ := result
  obtain ⟨hlast, hnext⟩ := hresult
  cases next? with
  | none => exact fun _ => hlast
  | some type =>
    intro path hpath _
    cases path with
    | nil => exact hlast
    | cons next path => exact hnext type rfl _ (hpath (List.cons_ne_nil next path))

end SelectSegment

section

variable (schema : Schema) (words : Vocabulary) (owner : StructuredType)

/-- A star, or a path that resolves from the type `owner` or from a type that it is narrowed to. -/
def SelectItem.Valid : SelectItem → Prop
  | .star => True
  | .path cast segments =>
    (∀ narrowed ∈ cast, owner.CastsTo schema words narrowed) ∧
      SelectSegment.PathResolves schema words (cast.getD owner) segments

def Select.Valid (select : Select) : Prop :=
  select ≠ [] ∧ ∀ item ∈ select, item.Valid schema words owner

theorem SelectItem.yields_parse :
    Yields words (SelectItem.parse schema owner) (SelectItem.Valid schema words owner) := by
  apply (yields_accept .star).bind
  intro star _
  cases star with
  | true => exact .pure trivial
  | false =>
    apply owner.yields_parseCast?.bind
    intro cast? hcast
    cases cast? with
    | none => exact (SelectSegment.yields_path owner).map fun _ hpath => ⟨by simp, hpath⟩
    | some cast =>
      apply (yields_expect (by decide)).bind
      intro _ _
      exact (SelectSegment.yields_path cast).map fun _ hpath => ⟨hcast, hpath⟩

theorem Select.yields_parse :
    Yields words (Select.parse schema owner) (Select.Valid schema words owner) :=
  (SelectItem.yields_parse schema words owner).separated .comma

end

end ODataOptions
