import ODataOptions.Parser.Basic
import ODataOptions.Schema.Basic

/-!
# Type casts

In a path, the name of a derived type narrows what the path has come to.
-/

namespace ODataOptions

open ODataOptions.Parser

/-- Parses the name of a type derived from the type referred to, if a qualified name follows at all.
Only types of the same kind come into question. -/
def StructuredType.parseCast? (schema : Schema) (referenced : StructuredType) :
    Parser (Option StructuredType) := do
  match ← take? .qualifiedName with
  | none => return none
  | some token =>
    match (QualifiedName.parse? token.text).bind (schema.type? referenced.kind) with
    | none => throw { problem := .unknownType token.text, span := token.span }
    | some cast =>
      if schema.isCompatible cast referenced then return some cast
      else throw { problem := .incompatibleCast cast referenced, span := token.span }

end ODataOptions
