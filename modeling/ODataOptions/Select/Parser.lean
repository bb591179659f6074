import ODataOptions.Schema.Cast
import ODataOptions.Select.Basic

/-!
# Parsing of selections

A selected path begins at a type or at a derived one, goes on through complex properties, each of
which may be narrowed, and ends at any member or at a cast.
-/

namespace ODataOptions

open ODataOptions.Parser

namespace SelectSegment

/-- The rest of a step that is a property: if it is complex, a slash may follow, and behind that a
cast to end the path or to go on from. -/
def parseProperty (schema : Schema) (property : Property) :
    Parser (SelectSegment × Option StructuredType) := do
  match property.complexType? with
  | none => return ({ member := .property property }, none)
  | some type =>
    if ← accept .slash then
      match ← type.parseCast? schema with
      | none => return ({ member := .property property }, some type)
      | some cast =>
        let goesOn ← accept .slash
        return ({ member := .property property, cast }, if goesOn then some cast else none)
    else return ({ member := .property property }, none)

/-- A step of a path that has come to the type `owner`, and the type that the path goes on from, if
it does. -/
def parse (schema : Schema) (owner : StructuredType) :
    Parser (SelectSegment × Option StructuredType) := do
  let token ← expect .identifier
  match schema.property? owner token.text with
  | some property => parseProperty schema property
  | none =>
    match schema.navigation? owner token.text with
    | some navigation =>
      if (← current).isA .slash then failHere (.navigationInSelect token.text)
      else return ({ member := .navigation navigation }, none)
    | none => throw { problem := .propertyNotInType token.text owner, span := token.span }

end SelectSegment

namespace SelectItem

def parse (schema : Schema) (owner : StructuredType) : Parser SelectItem := do
  if ← accept .star then return .star
  else
    match ← owner.parseCast? schema with
    | none => return .path none (← unfold (SelectSegment.parse schema) owner)
    | some cast =>
      let _ ← expect .slash
      return .path cast (← unfold (SelectSegment.parse schema) cast)

end SelectItem

def Select.parse (schema : Schema) (owner : StructuredType) : Parser Select :=
  separated (SelectItem.parse schema owner) .comma

end ODataOptions
