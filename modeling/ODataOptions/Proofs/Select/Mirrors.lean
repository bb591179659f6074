import ODataOptions.Proofs.Parser.Mirrors
import ODataOptions.Select.Parser

/-!
# Selections do not depend on what follows

A selection that ends before a semicolon, a closing parenthesis or the end of the input is parsed alike
before each of them, and so is an item of it before these and before a comma.
-/

namespace ODataOptions

open ODataOptions.Parser

theorem StructuredType.mirrors_parseCast? (schema : Schema) (referenced : StructuredType) :
    Mirrors .item id (referenced.parseCast? schema) (referenced.parseCast? schema) := by
  apply (mirrors_take? (by decide)).bind_token
  · intro token token' hword
    have htext : token.text = token'.text := congrArg Word.text hword
    dsimp only
    rw [htext]
    cases (QualifiedName.parse? token'.text).bind (schema.type? referenced.kind) with
    | none => exact mirrors_throw _
    | some cast =>
      dsimp only
      split
      · exact mirrors_pure rfl
      · exact mirrors_throw _
  · exact mirrors_pure rfl

namespace SelectSegment

variable {schema : Schema}

theorem mirrors_parseProperty (property : Property) :
    Mirrors .item id (parseProperty schema property) (parseProperty schema property) := by
  rw [parseProperty]
  cases property.complexType? with
  | none => exact mirrors_pure rfl
  | some type =>
    apply (mirrors_accept (by decide)).bind_bool
    · apply (type.mirrors_parseCast? schema).bind_id
      intro cast?
      cases cast? with
      | none => exact mirrors_pure rfl
      | some cast => exact (mirrors_accept (by decide)).bind_id fun _ => mirrors_pure rfl
    · exact mirrors_pure rfl

theorem mirrors_parse (owner : StructuredType) :
    Mirrors .item id (SelectSegment.parse schema owner) (SelectSegment.parse schema owner) := by
  apply (mirrors_expect (by decide)).bind
  intro token token' hword
  have htext : token.text = token'.text := congrArg Word.text hword
  rw [htext]
  cases schema.property? owner token'.text with
  | some property => exact mirrors_parseProperty property
  | none =>
    cases schema.navigation? owner token'.text with
    | none => exact mirrors_throw _
    | some navigation =>
      apply mirrors_current_test (·.isA .slash) fun word hends => hends.isA_eq_false (by decide)
      intro behind behind' hslash
      rw [Token.isA_word, Token.isA_word] at hslash
      rw [hslash]
      split
      · exact mirrors_failHere _
      · exact mirrors_pure rfl

theorem consumes_parse (owner : StructuredType) : Consumes (SelectSegment.parse schema owner) := by
  apply (consumes_expect (by decide)).bind
  intro token
  split
  · exact (mirrors_parseProperty _).moves
  · split
    · apply moves_current.bind
      intro behind
      split
      · exact moves_failHere _
      · exact moves_pure _
    · exact moves_throw _

end SelectSegment

theorem SelectItem.mirrors_parse {schema : Schema} (owner : StructuredType) :
    Mirrors .item id (SelectItem.parse schema owner) (SelectItem.parse schema owner) := by
  have hpath := mirrors_unfold_id (@SelectSegment.mirrors_parse schema) fun owner =>
     (SelectSegment.consumes_parse owner).progresses
  apply (mirrors_accept (by decide)).bind_bool
  · exact mirrors_pure rfl
  · apply (owner.mirrors_parseCast? schema).bind_id
    intro cast?
    cases cast? with
    | none => exact (hpath owner).bind_id fun _ => mirrors_pure rfl
    | some cast =>
      apply (mirrors_expect (by decide)).bind
      intro _ _ _
      apply (hpath cast).bind_id
      intro _
      exact mirrors_pure rfl

theorem Select.mirrors_parse (schema : Schema) (owner : StructuredType) :
    Mirrors .value id (Select.parse schema owner) (Select.parse schema owner) :=
  ((SelectItem.mirrors_parse owner).narrow (by decide)).separated_id (by decide) (by decide)

end ODataOptions
