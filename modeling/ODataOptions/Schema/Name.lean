/-!
# Qualified names

The types of a schema are named by a qualifier and a name of their own, written with a dot between
them.  A qualifier may hold dots itself, so a written name is split at its last one.
-/

namespace ODataOptions

/-- The name of a type together with the namespace that it belongs to. -/
structure QualifiedName where
  qualifier : String
  name : String
deriving DecidableEq, Repr, Inhabited

namespace QualifiedName

def print (name : QualifiedName) : String :=
  name.qualifier ++ "." ++ name.name

/-- Reads a written name, split at its last dot.  A text without a dot, or with nothing on one
side of it, is not a qualified name. -/
def parse? (text : String) : Option QualifiedName :=
  let backwards := text.toList.reverse
  let name := (backwards.takeWhile (· ≠ '.')).reverse
  let qualifier := ((backwards.dropWhile (· ≠ '.')).drop 1).reverse
  if name.isEmpty || qualifier.isEmpty then none
  else some ⟨String.ofList qualifier, String.ofList name⟩

/-- What `text` names when it is written within the namespace `qualifier`: itself if it is a
qualified name, and a name of that namespace otherwise. -/
def within (qualifier text : String) : QualifiedName :=
  (parse? text).getD ⟨qualifier, text⟩

end QualifiedName

end ODataOptions
