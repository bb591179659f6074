import ODataOptions.Schema.Type

/-!
# Selections

The members that `$select` asks for, and their canonical text.
-/

namespace ODataOptions

/-- A step of a selected path: a member, with the derived type that it is narrowed to. -/
structure SelectSegment where
  member : Member
  cast : Option StructuredType := none
deriving DecidableEq, Repr, Inhabited

/-- Every member, or the one at the end of a path. -/
inductive SelectItem
  | star
  | path (cast : Option StructuredType) (segments : List SelectSegment)
deriving DecidableEq, Repr, Inhabited

namespace SelectSegment

def print (segment : SelectSegment) : String :=
  match segment.cast with
  | some cast => segment.member.name ++ "/" ++ cast.print
  | none => segment.member.name

end SelectSegment

namespace SelectItem

def print : SelectItem → String
  | .star => "*"
  | .path none segments => "/".intercalate (segments.map SelectSegment.print)
  | .path (some cast) segments =>
    cast.print ++ "/" ++ "/".intercalate (segments.map SelectSegment.print)

end SelectItem

abbrev Select := List SelectItem

namespace Select

def print (select : Select) : String := ",".intercalate (select.map SelectItem.print)

end Select

end ODataOptions
