import ODataOptions.Text.Case

/-!
# Kinds of system query options

The nine system query options, their keywords and the places inside `$expand` that admit them.
-/

namespace ODataOptions

/-- The system query options, in the order in which they are listed and printed. -/
inductive OptionKind
  | count
  | expand
  | filter
  | levels
  | orderBy
  | search
  | select
  | skip
  | top
deriving DecidableEq, Repr, Inhabited

namespace OptionKind

def all : List OptionKind :=
  [count, expand, filter, levels, orderBy, search, select, skip, top]

def keyword : OptionKind → String
  | count => "$count"
  | expand => "$expand"
  | filter => "$filter"
  | levels => "$levels"
  | orderBy => "$orderby"
  | search => "$search"
  | select => "$select"
  | skip => "$skip"
  | top => "$top"

/-- The kind that a keyword names, in whatever case it is written. -/
def ofKeyword? (text : String) : Option OptionKind :=
  all.find? fun kind => Text.sameWord kind.keyword text

theorem mem_all (kind : OptionKind) : kind ∈ all := by
  cases kind <;> decide

theorem ofKeyword?_keyword (kind : OptionKind) : ofKeyword? kind.keyword = some kind := by
  cases kind <;> decide

/-- The case of a keyword does not matter. -/
theorem ofKeyword?_congr {text text' : String} (hfolded : Text.folded text = Text.folded text') :
    ofKeyword? text = ofKeyword? text' := by
  simp only [ofKeyword?, Text.sameWord, hfolded]

end OptionKind

/-- What the options in the parentheses of an `$expand` item apply to. -/
inductive OptionContext
  /-- The entities that the path leads to. -/
  | plain
  /-- References to these entities, behind `/$ref`. -/
  | references
  /-- The number of these entities, behind `/$count`. -/
  | counting
deriving DecidableEq, Repr, Inhabited

namespace OptionContext

/-- Whether an option may be given in this context.  References have no content to expand or
select, and a number has no order and no pages either. -/
def allows (context : OptionContext) : OptionKind → Bool
  | .filter | .search => true
  | .expand | .levels | .select => context = .plain
  | .count | .orderBy | .skip | .top => context ≠ .counting

end OptionContext

end ODataOptions
