import ODataOptions.Proofs.Parser.Whole
import ODataOptions.Proofs.Select.Completeness

/-!
# Selections and their canonical texts

What is parsed from a text is a valid selection, and a valid selection is parsed from its canonical
text.  The text that a selection was parsed from may go on behind it: only its words matter.
-/

namespace ODataOptions

open ODataOptions.Parser

def TypeDefinition.shopGeoAddress : TypeDefinition :=
  { name := ⟨"Shop", "GeoAddress"⟩, kind := .complex, base := some ⟨"Shop", "Address"⟩
    properties := .ofList [⟨"Latitude", .primitive .double, false⟩] }

namespace Select

/-- The canonical text of a valid selection has no faults, and the selection is parsed from its tokens,
up to the end of the input. -/
theorem Valid.parse_canonical {schema : Schema} {owner : StructuredType} {select : Select}
    (hselect : select.Valid schema Word.IsToken owner) :
    invalidParts select.print = [] ∧
      ∃ last : Cursor, last.current.kind = .endOfInput ∧
        Select.parse schema owner (.ofTokens (tokens select.print)) = .ok select last := by
  have hwritten := (writes hselect).written
  obtain ⟨last, hend, hok, -⟩ := (reads_parse hselect).on_tokens hwritten
  obtain ⟨_, hrun, rfl⟩ := hok trivial
  exact ⟨hwritten.tokens.1, last, hend, hrun⟩

/-- What is parsed from the tokens of a faultless text is one or more items, each of them a star or a
path that resolves from the type `owner`, and parsing the canonical text leads to the same again. -/
theorem valid_stable_of_parse (schema : Schema) (owner : StructuredType) (text : String)
    (select : Select) (rest : Cursor) (hfaultless : invalidParts text = [])
    (hparse : Select.parse schema owner (.ofTokens (tokens text)) = .ok select rest) :
    select.Valid schema Word.IsToken owner ∧ invalidParts select.print = [] ∧
      ∃ last : Cursor, last.current.kind = .endOfInput ∧
        Select.parse schema owner (.ofTokens (tokens select.print)) = .ok select last := by
  have hvalid : select.Valid schema Word.IsToken owner :=
    (yields_parse schema Word.IsToken owner (over_tokens hfaultless) hparse).1
  exact ⟨hvalid, hvalid.parse_canonical⟩

/-- A cast in the middle of a path, a navigation property at the end of another one, and more text
behind the selection. -/
theorem valid_stable_of_parse_shop :
    ∃ select : Select, select.print = "Address/Shop.GeoAddress/City,Address/Region,*" ∧
      select.Valid (Schema.shop.insert .shopGeoAddress) Word.IsToken .shopCustomer ∧
      invalidParts select.print = [] ∧
      ∃ last : Cursor, last.current.kind = .endOfInput ∧
        Select.parse (Schema.shop.insert .shopGeoAddress) .shopCustomer
          (.ofTokens (tokens select.print)) = .ok select last := by
  have hparse : ∃ select rest, select.print = "Address/Shop.GeoAddress/City,Address/Region,*" ∧
      invalidParts "Address / Shop.GeoAddress/City, Address/Region, * eq" = [] ∧
      Select.parse (Schema.shop.insert .shopGeoAddress) .shopCustomer
        (.ofTokens (tokens "Address / Shop.GeoAddress/City, Address/Region, * eq")) =
          .ok select rest := by
    refine ⟨_, _, ?_, ?_, rfl⟩ <;> decide +kernel
  obtain ⟨select, rest, hprint, hfaultless, hparse⟩ := hparse
  exact ⟨select, hprint, valid_stable_of_parse _ _ _ _ _ hfaultless hparse⟩

end Select

end ODataOptions
