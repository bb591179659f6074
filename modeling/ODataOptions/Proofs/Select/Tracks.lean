import ODataOptions.Proofs.Parser.Tracks
import ODataOptions.Select.Parser

/-!
# Casts and selections in two runs side by side

A cast and a selection are the same in two runs over the same words.
-/

namespace ODataOptions

open ODataOptions.Parser

variable {C : Comparison} (hwords : C.Respelled) (schema : Schema)

include hwords

theorem StructuredType.tracks_parseCast? (referenced : StructuredType) :
    C.Tracks Eq (referenced.parseCast? schema) (referenced.parseCast? schema) := by
  apply (hwords.take? .qualifiedName rfl).bind
  intro found found' hfound
  cases hfound with
  | none => exact .pure rfl
  | some hfound =>
    obtain ⟨htoken, htext⟩ := hfound
    dsimp only
    rw [htext]
    split
    · exact .throw ⟨rfl, C.span htoken, .none⟩
    · exact .ite .rfl (.pure rfl) (.throw ⟨rfl, C.span htoken, .none⟩)

namespace SelectSegment

theorem tracks_parseProperty (property : Property) :
    C.Tracks Eq (parseProperty schema property) (parseProperty schema property) := by
  rw [parseProperty]
  split
  · exact .pure rfl
  · next type htype =>
    apply (hwords.accept .slash).bind_eq
    intro slash
    refine .ite .rfl ?_ (.pure rfl)
    apply (type.tracks_parseCast? hwords schema).bind_eq
    intro cast?
    cases cast? with
    | none => exact .pure rfl
    | some cast => exact (hwords.accept .slash).bind_eq fun _ => .pure rfl

theorem tracks_parse (owner : StructuredType) :
    C.Tracks Eq (parse schema owner) (parse schema owner) := by
  apply (hwords.expect .identifier rfl).bind
  rintro token token' ⟨htoken, htext⟩
  rw [htext]
  split
  · exact tracks_parseProperty hwords schema _
  · split
    · apply Comparison.Tracks.current.bind
      intro _ _ hnext
      exact .ite (by rw [hwords.sameIsA _ _ _ hnext]) (.failHere rfl) (.pure rfl)
    · exact .throw ⟨rfl, C.span htoken, .none⟩

end SelectSegment

theorem SelectItem.tracks_parse (owner : StructuredType) :
    C.Tracks Eq (SelectItem.parse schema owner) (SelectItem.parse schema owner) := by
  have hpath : ∀ owner, C.Tracks Eq (unfold (SelectSegment.parse schema) owner)
      (unfold (SelectSegment.parse schema) owner) :=
    .unfold_eq (SelectSegment.tracks_parse hwords schema)
  apply (hwords.accept .star).bind_eq
  intro star
  refine .ite .rfl (.pure rfl) ?_
  apply (owner.tracks_parseCast? hwords schema).bind_eq
  intro cast?
  cases cast? with
  | none => exact (hpath owner).bind_eq fun _ => .pure rfl
  | some cast =>
    apply (hwords.expect_mark .slash).bind
    intro _ _ _
    apply (hpath cast).bind_eq
    intro _
    exact .pure rfl

theorem Select.tracks_parse (owner : StructuredType) :
    C.Tracks Eq (Select.parse schema owner) (Select.parse schema owner) :=
  .separated_eq (SelectItem.tracks_parse hwords schema owner) (hwords.sameIsA .comma)

end ODataOptions
