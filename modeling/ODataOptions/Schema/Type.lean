import ODataOptions.NameTable
import ODataOptions.Schema.Name

/-!
# Types and members of a schema

Structured types are entity types and complex types.  They own properties, whose values are
primitive or complex, and navigation properties, which lead to entities.
-/

namespace ODataOptions

inductive TypeKind
  | entity
  | complex
deriving DecidableEq, Repr, Inhabited

/-- A reference to a structured type.  It need not exist in any schema. -/
structure StructuredType where
  kind : TypeKind
  name : QualifiedName
deriving DecidableEq, Repr, Inhabited

namespace StructuredType

def entity (name : QualifiedName) : StructuredType := ⟨.entity, name⟩

def complex (name : QualifiedName) : StructuredType := ⟨.complex, name⟩

def print (type : StructuredType) : String := type.name.print

end StructuredType

/-- The primitive types that a property may have. -/
inductive PrimitiveKind
  | boolean
  | byte
  | int16
  | int32
  | int64
  | decimal
  | double
  | string
  | guid
  | date
  | dateTimeOffset
deriving DecidableEq, Repr, Inhabited

namespace PrimitiveKind

def name : PrimitiveKind → String
  | boolean => "Boolean"
  | byte => "Byte"
  | int16 => "Int16"
  | int32 => "Int32"
  | int64 => "Int64"
  | decimal => "Decimal"
  | double => "Double"
  | string => "String"
  | guid => "Guid"
  | date => "Date"
  | dateTimeOffset => "DateTimeOffset"

def all : List PrimitiveKind :=
  [boolean, byte, int16, int32, int64, decimal, double, string, guid, date, dateTimeOffset]

def print (kind : PrimitiveKind) : String := "Edm." ++ kind.name

def isNumeric : PrimitiveKind → Bool
  | byte | int16 | int32 | int64 | decimal | double => true
  | _ => false

def isTemporal : PrimitiveKind → Bool
  | date | dateTimeOffset => true
  | _ => false

end PrimitiveKind

/-- The type of the value, or of each value, of a property. -/
inductive PropertyType
  | primitive (kind : PrimitiveKind)
  | complex (name : QualifiedName)
deriving DecidableEq, Repr, Inhabited

/-- A structural property: one value, or a collection of values, of one type. -/
structure Property where
  name : String
  type : PropertyType
  collection : Bool := false
deriving DecidableEq, Repr, Inhabited

namespace Property

instance : Named Property := ⟨Property.name⟩

def complexType? (property : Property) : Option StructuredType :=
  match property.type with
  | .complex name => some (.complex name)
  | .primitive _ => none

def primitive? (property : Property) : Option PrimitiveKind :=
  match property.type with
  | .primitive kind => some kind
  | .complex _ => none

end Property

/-- A navigation property: a link to one entity, or to a collection of them. -/
structure Navigation where
  name : String
  target : QualifiedName
  collection : Bool := false
deriving DecidableEq, Repr, Inhabited

namespace Navigation

instance : Named Navigation := ⟨Navigation.name⟩

/-- Navigation always leads to an entity type. -/
def targetType (navigation : Navigation) : StructuredType := .entity navigation.target

end Navigation

/-- A member of a structured type: a property or a navigation property. -/
inductive Member
  | property (property : Property)
  | navigation (navigation : Navigation)
deriving DecidableEq, Repr, Inhabited

namespace Member

def name : Member → String
  | .property target => target.name
  | .navigation target => target.name

def collection : Member → Bool
  | .property target => target.collection
  | .navigation target => target.collection

/-- The structured type that the member leads to, each of its values if they are many. -/
def type? : Member → Option StructuredType
  | .property target => target.complexType?
  | .navigation target => some target.targetType

end Member

end ODataOptions
