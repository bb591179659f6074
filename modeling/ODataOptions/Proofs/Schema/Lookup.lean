import ODataOptions.Schema.Basic

/-!
# Looking up names in a schema

What a look-up finds carries the name that was looked for.
-/

namespace ODataOptions

theorem NameTable.nameOf_of_find? {α : Type} [Named α] {table : NameTable α} {name : String}
    {entry : α} (hfound : table.find? name = some entry) : nameOf entry = name := by
  have hname := List.find?_some hfound
  simpa using hname

namespace Schema

variable {schema : Schema} {owner : StructuredType} {name : String}

theorem name_of_property? {property : Property}
    (hfound : schema.property? owner name = some property) : property.name = name := by
  obtain ⟨definition, -, hdefinition⟩ := List.exists_of_findSome?_eq_some hfound
  exact NameTable.nameOf_of_find? hdefinition

theorem name_of_navigation? {navigation : Navigation}
    (hfound : schema.navigation? owner name = some navigation) : navigation.name = name := by
  obtain ⟨definition, -, hdefinition⟩ := List.exists_of_findSome?_eq_some hfound
  exact NameTable.nameOf_of_find? hdefinition

/-- The definition of a type is one of the schema's, and defines that type. -/
theorem mem_definitions_of_definition? {definition : TypeDefinition} {type : StructuredType}
    (hfound : schema.definition? type = some definition) :
    definition ∈ schema.definitions ∧ definition.type = type := by
  obtain ⟨hname, hkind⟩ := Option.filter_eq_some_iff.mp hfound
  have hname' := List.find?_some hname
  simp only [decide_eq_true_eq] at hname' hkind
  refine ⟨List.mem_of_find?_eq_some hname, ?_⟩
  rw [TypeDefinition.type, hname', hkind]

/-- A type of the schema is the one of the kind and the name that was looked for. -/
theorem eq_of_type? {kind : TypeKind} {name : QualifiedName} {type : StructuredType}
    (hfound : schema.type? kind name = some type) : type = ⟨kind, name⟩ := by
  obtain ⟨definition, hdefinition, htype⟩ := Option.map_eq_some_iff.mp hfound
  rw [← htype]
  exact (mem_definitions_of_definition? hdefinition).2

/-! ## Small schemas -/

/-- Customers with an address, and the orders that they place, some of which are urgent. -/
def shop : Schema :=
  .ofList [
    { name := ⟨"Shop", "Customer"⟩, kind := .entity
      properties := .ofList [⟨"Age", .primitive .int32, false⟩, ⟨"Name", .primitive .string, false⟩,
        ⟨"Address", .complex ⟨"Shop", "Address"⟩, false⟩]
      navigations := .ofList [⟨"Orders", ⟨"Shop", "Order"⟩, true⟩] },
    { name := ⟨"Shop", "Address"⟩, kind := .complex
      properties := .ofList [⟨"City", .primitive .string, false⟩]
      navigations := .ofList [⟨"Region", ⟨"Shop", "Region"⟩, false⟩] },
    { name := ⟨"Shop", "Region"⟩, kind := .entity
      properties := .ofList [⟨"Code", .primitive .string, false⟩] },
    { name := ⟨"Shop", "Order"⟩, kind := .entity
      properties := .ofList [⟨"Total", .primitive .decimal, false⟩]
      navigations := .ofList [⟨"Customer", ⟨"Shop", "Customer"⟩, false⟩] },
    { name := ⟨"Shop", "UrgentOrder"⟩, kind := .entity, base := some ⟨"Shop", "Order"⟩ }]

def odd : Schema :=
  .ofList [
    { name := ⟨"Odd", "Type"⟩, kind := .entity
      properties := .ofList [⟨"not", .primitive .int32, false⟩]
      navigations := .ofList [⟨"Next", ⟨"Odd", "Type"⟩, false⟩] }]

end Schema

def StructuredType.shopCustomer : StructuredType := .entity ⟨"Shop", "Customer"⟩

def Property.shopAge : Property := ⟨"Age", .primitive .int32, false⟩

def StructuredType.oddType : StructuredType := .entity ⟨"Odd", "Type"⟩

end ODataOptions
