import ODataOptions.Proofs.Schema.Lineage

/-!
# Extended schemas

Two schemas agree on some names if a look-up that begins at one of them has the same result in both, and
what it finds leads to such names again.  A definition that a schema does not refer to can be added to it,
and the extended schema agrees with it on all names but the new one.
-/

namespace ODataOptions

namespace Schema

/-- Look-ups from the known names have the same results in both schemas and lead to known names. -/
structure Agree (known : QualifiedName → Prop) (schema schema' : Schema) : Prop where
  type? : ∀ kind name, known name → schema.type? kind name = schema'.type? kind name
  property? : ∀ (owner : StructuredType) name, known owner.name →
    schema.property? owner name = schema'.property? owner name
  navigation? : ∀ (owner : StructuredType) name, known owner.name →
    schema.navigation? owner name = schema'.navigation? owner name
  isCompatible : ∀ candidate expected : StructuredType, known candidate.name → known expected.name →
    schema.isCompatible candidate expected = schema'.isCompatible candidate expected
  complexType? : ∀ (owner : StructuredType) name, known owner.name →
    ∀ property ∈ schema.property? owner name, ∀ type ∈ property.complexType?, known type.name
  target : ∀ (owner : StructuredType) name, known owner.name →
    ∀ navigation ∈ schema.navigation? owner name, known navigation.target

/-- The schema does not define the name, nor does any definition refer to it. -/
structure Lacks (schema : Schema) (name : QualifiedName) : Prop where
  definition : ∀ other ∈ schema.definitions, other.name ≠ name
  base : ∀ other ∈ schema.definitions, other.base ≠ some name
  complex : ∀ other ∈ schema.definitions, ∀ property ∈ other.properties.entries,
    property.type ≠ .complex name
  target : ∀ other ∈ schema.definitions, ∀ navigation ∈ other.navigations.entries,
    navigation.target ≠ name

namespace Lacks

variable {schema : Schema} {definition other : TypeDefinition} {owner : StructuredType}
  (hlacks : schema.Lacks definition.name)

include hlacks

theorem length_insert :
    (schema.insert definition).definitions.length = schema.definitions.length + 1 := by
  have hall : schema.definitions.filter (·.name ≠ definition.name) = schema.definitions := by
    rw [List.filter_eq_self]
    intro other hmem
    exact decide_eq_true (hlacks.definition other hmem)
  rw [insert, List.length_cons, hall]

omit hlacks in
theorem definition?_insert (howner : owner.name ≠ definition.name) :
    (schema.insert definition).definition? owner = schema.definition? owner := by
  rw [definition?, definition?, find?_insert, if_neg howner.symm]

/-- No definition of the schema refers to the new one as its base. -/
theorem baseDefinition?_insert (hmem : other ∈ schema.definitions) :
    (schema.insert definition).baseDefinition? other = schema.baseDefinition? other := by
  rw [baseDefinition?, baseDefinition?]
  cases hbase : other.base with
  | none => rfl
  | some base =>
    have hother : base ≠ definition.name := by
      rintro rfl
      exact hlacks.base other hmem hbase
    exact definition?_insert hother

/-- Nor does the new definition stand among the bases of another one. -/
theorem ancestry_insert (count : Nat) (hmem : other ∈ schema.definitions) :
    (schema.insert definition).ancestry count other = schema.ancestry count other := by
  induction count generalizing other with
  | zero => rfl
  | succ count ih =>
    rw [ancestry, ancestry, hlacks.baseDefinition?_insert hmem]
    cases hbase : schema.baseDefinition? other with
    | none => rfl
    | some base =>
      rw [Option.map_some, Option.map_some, ih (mem_definitions_of_baseDefinition? hbase)]

/-- The line of base types is the same, walked one step further. -/
theorem lineage_insert (howner : owner.name ≠ definition.name) :
    (schema.insert definition).lineage owner =
      ((schema.definition? owner).map (schema.ancestry (schema.definitions.length + 1))).getD [] := by
  rw [lineage, definition?_insert howner, hlacks.length_insert]
  cases hfound : schema.definition? owner with
  | none => rfl
  | some found =>
    exact hlacks.ancestry_insert _ (mem_definitions_of_definition? hfound).1

theorem findSome?_lineage_insert {α : Type} (find : TypeDefinition → Option α)
    (howner : owner.name ≠ definition.name) :
    ((schema.insert definition).lineage owner).findSome? find =
      (schema.lineage owner).findSome? find := by
  rw [hlacks.lineage_insert howner, lineage]
  cases hfound : schema.definition? owner with
  | none => rfl
  | some found => exact findSome?_ancestry_succ find (mem_definitions_of_definition? hfound).1

theorem mem_lineage_insert_iff (howner : owner.name ≠ definition.name) :
    other ∈ (schema.insert definition).lineage owner ↔ other ∈ schema.lineage owner := by
  rw [hlacks.lineage_insert howner, lineage]
  cases hfound : schema.definition? owner with
  | none => rfl
  | some found => exact mem_ancestry_succ_iff (mem_definitions_of_definition? hfound).1

/-- A definition that a schema lacks can be added without an effect on any other name. -/
theorem agree_insert : Agree (· ≠ definition.name) schema (schema.insert definition) := by
  refine ⟨?_, ?_, ?_, ?_, ?_, ?_⟩
  · intro kind name hname
    have hother : (⟨kind, name⟩ : StructuredType).name ≠ definition.name := hname
    rw [type?, type?, definition?_insert hother]
  · intro owner name howner
    exact (hlacks.findSome?_lineage_insert _ howner).symm
  · intro owner name howner
    exact (hlacks.findSome?_lineage_insert _ howner).symm
  · intro candidate expected hcandidate _
    rw [isCompatible, isCompatible]
    congr 1
    rw [Bool.eq_iff_iff, List.contains_iff_mem, List.contains_iff_mem, List.mem_map, List.mem_map]
    simp only [hlacks.mem_lineage_insert_iff hcandidate]
  · intro owner name _ property hfound type htype
    obtain ⟨other, hmem, hproperty⟩ := List.exists_of_findSome?_eq_some hfound
    have hentry := List.mem_of_find?_eq_some hproperty
    have hne := hlacks.complex other (mem_definitions_of_mem_lineage hmem) property hentry
    rw [Property.complexType?] at htype
    split at htype
    · next hcomplex =>
      cases htype
      rintro rfl
      exact hne hcomplex
    · cases htype
  · intro owner name _ navigation hfound
    obtain ⟨other, hmem, hnavigation⟩ := List.exists_of_findSome?_eq_some hfound
    exact hlacks.target other (mem_definitions_of_mem_lineage hmem) navigation
      (List.mem_of_find?_eq_some hnavigation)

end Lacks

end Schema

end ODataOptions
