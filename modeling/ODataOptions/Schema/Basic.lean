import ODataOptions.Schema.Type

/-!
# Schemas

A schema is a set of structured types, each with an optional base type.  A type has the members
that it declares and those of its base types; what is declared nearer hides what is declared
further up.  Bases may be missing, of the other kind or in a circle: a missing base or one of the
other kind ends the line of base types, and a circle is walked no further than once through the
schema.
-/

namespace ODataOptions

/-- A structured type with the members that it declares itself. -/
structure TypeDefinition where
  name : QualifiedName
  kind : TypeKind
  base : Option QualifiedName := none
  properties : NameTable Property := ∅
  navigations : NameTable Navigation := ∅
deriving DecidableEq

namespace TypeDefinition

def type (definition : TypeDefinition) : StructuredType := ⟨definition.kind, definition.name⟩

/-- Declares the base type, whose name is read within the definition's namespace. -/
def withBase (definition : TypeDefinition) (base : String) : TypeDefinition :=
  { definition with base := some (.within definition.name.qualifier base) }

/-- Declares a property, instead of the property of that name if any. -/
def withProperty (definition : TypeDefinition) (property : Property) : TypeDefinition :=
  { definition with properties := definition.properties.insert property }

def withPrimitive (definition : TypeDefinition) (name : String) (kind : PrimitiveKind)
    (collection : Bool) : TypeDefinition :=
  definition.withProperty ⟨name, .primitive kind, collection⟩

/-- Declares a property of a complex type, whose name is read within the definition's namespace. -/
def withComplex (definition : TypeDefinition) (name type : String) (collection : Bool) :
    TypeDefinition :=
  definition.withProperty ⟨name, .complex (.within definition.name.qualifier type), collection⟩

/-- Declares a navigation property, instead of the navigation property of that name if any.  The
name of its target is read within the definition's namespace. -/
def withNavigation (definition : TypeDefinition) (name target : String) (collection : Bool) :
    TypeDefinition :=
  { definition with
    navigations := definition.navigations.insert
      ⟨name, .within definition.name.qualifier target, collection⟩ }

end TypeDefinition

/-- A set of type definitions, looked up by their names. -/
structure Schema where
  definitions : List TypeDefinition := []

namespace Schema

def empty : Schema := {}

def insert (schema : Schema) (definition : TypeDefinition) : Schema :=
  ⟨definition :: schema.definitions.filter (·.name ≠ definition.name)⟩

/-- The schema of a list of definitions, where a later definition replaces an earlier one of its
name. -/
def ofList (definitions : List TypeDefinition) : Schema := definitions.foldl insert empty

def find? (schema : Schema) (name : QualifiedName) : Option TypeDefinition :=
  schema.definitions.find? (·.name = name)

/-- An inserted definition is found under its name, and no other name is affected. -/
@[simp]
theorem find?_insert (schema : Schema) (definition : TypeDefinition) (name : QualifiedName) :
    (schema.insert definition).find? name =
      if definition.name = name then some definition else schema.find? name := by
  by_cases h : definition.name = name
  · simp [find?, insert, h]
  · simp only [find?, insert, List.find?_cons, List.find?_filter, h, if_false, decide_false]
    congr 1
    funext other
    by_cases heq : other.name = name
    · simp [heq, Ne.symm h]
    · simp [heq]

/-- The definition of a type, if its name is that of a type of its kind. -/
def definition? (schema : Schema) (type : StructuredType) : Option TypeDefinition :=
  (schema.find? type.name).filter (·.kind = type.kind)

def type? (schema : Schema) (kind : TypeKind) (name : QualifiedName) : Option StructuredType :=
  (schema.definition? ⟨kind, name⟩).map (·.type)

/-- The definition of the base type, which is of the same kind. -/
def baseDefinition? (schema : Schema) (definition : TypeDefinition) : Option TypeDefinition :=
  definition.base.bind fun base => schema.definition? ⟨definition.kind, base⟩

/-- A definition and those of its base types, nearest first and at most `count` of them. -/
def ancestry (schema : Schema) : Nat → TypeDefinition → List TypeDefinition
  | 0, _ => []
  | count + 1, definition =>
    definition :: ((schema.baseDefinition? definition).map (schema.ancestry count)).getD []

/-- The definitions of a type and of its base types, nearest first.  As many as the schema has
definitions are enough to meet each of them. -/
def lineage (schema : Schema) (type : StructuredType) : List TypeDefinition :=
  ((schema.definition? type).map (schema.ancestry schema.definitions.length)).getD []

/-- The property of that name of a type, declared by it or by the nearest base type. -/
def property? (schema : Schema) (owner : StructuredType) (name : String) : Option Property :=
  (schema.lineage owner).findSome? (·.properties.find? name)

/-- The navigation property of that name of a type, declared by it or by the nearest base type. -/
def navigation? (schema : Schema) (owner : StructuredType) (name : String) : Option Navigation :=
  (schema.lineage owner).findSome? (·.navigations.find? name)

def base? (schema : Schema) (type : StructuredType) : Option StructuredType :=
  ((schema.definition? type).bind schema.baseDefinition?).map (·.type)

/-- Whether `candidate` is the expected type or derived from it.  Each type is compatible with
itself, even one that the schema does not have. -/
def isCompatible (schema : Schema) (candidate expected : StructuredType) : Bool :=
  candidate = expected || ((schema.lineage candidate).map (·.type)).contains expected

end Schema

end ODataOptions
