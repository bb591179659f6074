import ODataOptions.Expand.Basic

/-!
# Canonical text of expansions

The items are printed in their order, and the options of an item in the order of their kinds.
-/

namespace ODataOptions

namespace PathSegment

/-- The text of a path.  The steps that can only end a path stand behind the star that ends it. -/
def printPath (cast : Option StructuredType) (segments : List PathSegment) (star : Bool) : String :=
  "/".intercalate <|
    cast.toList.map StructuredType.print ++
    (segments.filter (!·.isSuffix)).map print ++
    (if star then ["*"] else []) ++
    (segments.filter isSuffix).map print

end PathSegment

namespace ExpandItem

def printStar (ref : Bool) (levels : Option Levels) : String :=
  if ref then "*/$ref"
  else
    match levels with
    | some levels => "*($levels=" ++ levels.print ++ ")"
    | none => "*"

mutual

def print : ExpandItem → String
  | .star ref levels => printStar ref levels
  | .path cast segments every options =>
    let written := PathSegment.printPath cast segments every
    let texts := optionTexts options
    if texts.isEmpty then written else written ++ "(" ++ texts.print ++ ")"

def printAll : List ExpandItem → List String
  | [] => []
  | item :: items => print item :: printAll items

def expandText : Option (List ExpandItem) → Option String
  | none => none
  | some items => some (",".intercalate (printAll items))

/-- The options with their expansion, if they have one, replaced by its canonical text. -/
def optionTexts : OptionSet (List ExpandItem) → OptionSet String
  | ⟨count, expand, filter, levels, orderBy, search, select, skip, top⟩ =>
    ⟨count, expandText expand, filter, levels, orderBy, search, select, skip, top⟩

end

end ExpandItem

namespace Expand

def print (expand : Expand) : String := ",".intercalate (ExpandItem.printAll expand)

end Expand

namespace ExpandItem

theorem printAll_eq_map (items : List ExpandItem) : printAll items = items.map print := by
  induction items with
  | nil => rfl
  | cons item items ih => simp [printAll, ih]

theorem optionTexts_eq_map (options : OptionSet Expand) :
    optionTexts options = options.map Expand.print := by
  cases options with
  | mk count expand => cases expand <;> simp [optionTexts, expandText, OptionSet.map, Expand.print]

end ExpandItem

end ODataOptions
