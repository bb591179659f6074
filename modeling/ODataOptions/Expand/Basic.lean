import ODataOptions.SystemOption.Basic

/-!
# Expansions

The relations that `$expand` follows, each with the options that apply to what it leads to.  The
options of an item may hold an expansion in turn.
-/

namespace ODataOptions

inductive PathSegment
  /-- A complex property, whose value may be narrowed to a derived type. -/
  | complex (property : Property) (cast : Option StructuredType)
  /-- A navigation property, whose target may be narrowed to a derived type.  The derived type of a
  single entity and that of the members of a collection are kept apart. -/
  | navigation (navigation : Navigation) (entityCast collectionCast : Option StructuredType)
  /-- The references to the entities, `$ref`. -/
  | ref
  /-- The number of the entities, `$count`. -/
  | count
deriving DecidableEq, Repr, Inhabited

namespace PathSegment

def type? : PathSegment → Option StructuredType
  | .complex property cast => cast <|> property.complexType?
  | .navigation target entityCast collectionCast =>
    some ((entityCast <|> collectionCast).getD target.targetType)
  | .ref | .count => none

def collection : PathSegment → Bool
  | .complex property _ => property.collection
  | .navigation target _ _ => target.collection
  | .ref | .count => false

/-- Whether the step is one of those that can only end a path. -/
def isSuffix : PathSegment → Bool
  | .ref | .count => true
  | .complex _ _ | .navigation _ _ _ => false

/-- The name of a member, narrowed to a type if there is one. -/
def printNarrowed (name : String) : Option StructuredType → String
  | some cast => name ++ "/" ++ cast.print
  | none => name

def print : PathSegment → String
  | .complex property cast => printNarrowed property.name cast
  | .navigation target entityCast collectionCast =>
    printNarrowed target.name (entityCast <|> collectionCast)
  | .ref => "$ref"
  | .count => "$count"

/-- The last step of a path that leads to a value rather than to references or a number. -/
def lastValue? (path : List PathSegment) : Option PathSegment :=
  path.reverse.find? (!·.isSuffix)

end PathSegment

inductive ExpandItem
  /-- Every navigation property: the entities, or the references to them, and how often a recursive
  relation is followed. -/
  | star (ref : Bool) (levels : Option Levels)
  /-- The navigation property at the end of a path, or every one there, with the options for it. -/
  | path (cast : Option StructuredType) (segments : List PathSegment) (star : Bool)
      (options : OptionSet (List ExpandItem))
deriving Inhabited

abbrev Expand := List ExpandItem

namespace ExpandItem

mutual

/-- Whether two items are the same. -/
def same : ExpandItem → ExpandItem → Bool
  | .star ref levels, .star ref' levels' => ref = ref' && levels = levels'
  | .path cast segments every options, .path cast' segments' every' options' =>
    cast = cast' && segments = segments' && every = every' && sameOptions options options'
  | _, _ => false

def sameAll : List ExpandItem → List ExpandItem → Bool
  | [], [] => true
  | item :: items, item' :: items' => same item item' && sameAll items items'
  | _, _ => false

def sameExpand : Option (List ExpandItem) → Option (List ExpandItem) → Bool
  | none, none => true
  | some items, some items' => sameAll items items'
  | _, _ => false

def sameOptions : OptionSet (List ExpandItem) → OptionSet (List ExpandItem) → Bool
  | ⟨count, expand, filter, levels, orderBy, search, select, skip, top⟩, other =>
    count = other.count && sameExpand expand other.expand && filter = other.filter &&
      levels = other.levels && orderBy = other.orderBy && search = other.search &&
      select = other.select && skip = other.skip && top = other.top

end

mutual

theorem same_iff (item item' : ExpandItem) : same item item' = true ↔ item = item' := by
  cases item <;> cases item' <;> simp [same]
  case path.path cast segments star options cast' segments' star' options' =>
    rw [sameOptions_iff options options', and_assoc, and_assoc]

theorem sameAll_iff (items items' : List ExpandItem) :
    sameAll items items' = true ↔ items = items' := by
  match items, items' with
  | [], [] => simp [sameAll]
  | [], _ :: _ => simp [sameAll]
  | _ :: _, [] => simp [sameAll]
  | item :: items, item' :: items' => simp [sameAll, same_iff item item', sameAll_iff items items']

theorem sameExpand_iff (expand expand' : Option (List ExpandItem)) :
    sameExpand expand expand' = true ↔ expand = expand' := by
  match expand, expand' with
  | none, none => simp [sameExpand]
  | none, some _ => simp [sameExpand]
  | some _, none => simp [sameExpand]
  | some items, some items' => simp [sameExpand, sameAll_iff items items']

theorem sameOptions_iff (options options' : OptionSet (List ExpandItem)) :
    sameOptions options options' = true ↔ options = options' := by
  match options, options' with
  | ⟨_, expand, _, _, _, _, _, _, _⟩, ⟨_, expand', _, _, _, _, _, _, _⟩ =>
    simp [sameOptions, sameExpand_iff expand expand', and_assoc]

end

instance : DecidableEq ExpandItem := fun item item' => decidable_of_iff _ (same_iff item item')

end ExpandItem

end ODataOptions
