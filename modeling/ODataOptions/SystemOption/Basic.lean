import ODataOptions.OrderBy.Basic
import ODataOptions.Search.Basic
import ODataOptions.Select.Basic
import ODataOptions.SystemOption.Kind

/-!
# System query options

An option is a kind together with a value of that kind.  Expansions hold options themselves, so the
type of the value of `$expand` is a parameter here.
-/

namespace ODataOptions

/-- How often `$expand` follows a recursive relation. -/
inductive Levels
  | max
  | depth (count : Nat)
deriving DecidableEq, Repr, Inhabited

namespace Levels

def print : Levels → String
  | .max => "max"
  | .depth count => toString count

end Levels

/-- A system query option with its value, where `Expansion` is the type of the values of
`$expand`. -/
inductive SystemOption (Expansion : Type)
  | count (value : Bool)
  | expand (value : Expansion)
  | filter (value : Expression)
  | levels (value : Levels)
  | orderBy (value : OrderBy)
  | search (value : SearchExpression)
  | select (value : Select)
  | skip (value : Nat)
  | top (value : Nat)
deriving DecidableEq

namespace SystemOption

variable {Expansion : Type}

def kind : SystemOption Expansion → OptionKind
  | .count _ => .count
  | .expand _ => .expand
  | .filter _ => .filter
  | .levels _ => .levels
  | .orderBy _ => .orderBy
  | .search _ => .search
  | .select _ => .select
  | .skip _ => .skip
  | .top _ => .top

def map {Other : Type} (f : Expansion → Other) : SystemOption Expansion → SystemOption Other
  | .count value => .count value
  | .expand value => .expand (f value)
  | .filter value => .filter value
  | .levels value => .levels value
  | .orderBy value => .orderBy value
  | .search value => .search value
  | .select value => .select value
  | .skip value => .skip value
  | .top value => .top value

@[simp]
theorem kind_map {Other : Type} (f : Expansion → Other) (option : SystemOption Expansion) :
    (option.map f).kind = option.kind := by
  cases option <;> rfl

/-- The canonical text of the value alone, where an expansion is given by its text. -/
def printValue : SystemOption String → String
  | .count value => if value then "true" else "false"
  | .expand value => value
  | .filter value => value.print
  | .levels value => value.print
  | .orderBy value => OrderBy.print value
  | .search value => value.print
  | .select value => Select.print value
  | .skip value => toString value
  | .top value => toString value

/-- The canonical text of an option: its keyword, an equals sign and its value. -/
def print (option : SystemOption String) : String :=
  option.kind.keyword ++ "=" ++ option.printValue

end SystemOption

/-- System query options, at most one of each kind. -/
structure OptionSet (Expansion : Type) where
  count : Option Bool := none
  expand : Option Expansion := none
  filter : Option Expression := none
  levels : Option Levels := none
  orderBy : Option OrderBy := none
  search : Option SearchExpression := none
  select : Option Select := none
  skip : Option Nat := none
  top : Option Nat := none
deriving DecidableEq

namespace OptionSet

variable {Expansion : Type}

def empty : OptionSet Expansion := {}

instance : EmptyCollection (OptionSet Expansion) := ⟨empty⟩

instance : Inhabited (OptionSet Expansion) := ⟨empty⟩

def get? (options : OptionSet Expansion) : OptionKind → Option (SystemOption Expansion)
  | .count => options.count.map .count
  | .expand => options.expand.map .expand
  | .filter => options.filter.map .filter
  | .levels => options.levels.map .levels
  | .orderBy => options.orderBy.map .orderBy
  | .search => options.search.map .search
  | .select => options.select.map .select
  | .skip => options.skip.map .skip
  | .top => options.top.map .top

def contains (options : OptionSet Expansion) (kind : OptionKind) : Bool :=
  (options.get? kind).isSome

/-- Puts an option into the set, whatever the set has of its kind. -/
def set (options : OptionSet Expansion) : SystemOption Expansion → OptionSet Expansion
  | .count value => { options with count := some value }
  | .expand value => { options with expand := some value }
  | .filter value => { options with filter := some value }
  | .levels value => { options with levels := some value }
  | .orderBy value => { options with orderBy := some value }
  | .search value => { options with search := some value }
  | .select value => { options with select := some value }
  | .skip value => { options with skip := some value }
  | .top value => { options with top := some value }

/-- Adds an option to the set.  An option of a kind that the set has already is handed back. -/
def insert (options : OptionSet Expansion) (option : SystemOption Expansion) :
    Except (SystemOption Expansion) (OptionSet Expansion) :=
  if options.contains option.kind then .error option else .ok (options.set option)

/-- The options of the set, in the order of their kinds. -/
def toList (options : OptionSet Expansion) : List (SystemOption Expansion) :=
  OptionKind.all.filterMap options.get?

/-- The set of a list of options, where only the first option of each kind is taken. -/
def ofList (options : List (SystemOption Expansion)) : OptionSet Expansion :=
  options.foldl (fun set option => (set.insert option).toOption.getD set) empty

def size (options : OptionSet Expansion) : Nat := options.toList.length

def isEmpty (options : OptionSet Expansion) : Bool := options.toList.isEmpty

def map {Other : Type} (f : Expansion → Other) (options : OptionSet Expansion) : OptionSet Other :=
  { options with expand := options.expand.map f }

/-- The canonical text of a set: its options with semicolons between them, where an expansion is
given by its text. -/
def print (options : OptionSet String) : String :=
  ";".intercalate (options.toList.map SystemOption.print)

/-- An option that is put into a set is the one of its kind, and no other kind is affected. -/
theorem get?_set (options : OptionSet Expansion) (option : SystemOption Expansion)
    (kind : OptionKind) :
    (options.set option).get? kind =
      if option.kind = kind then some option else options.get? kind := by
  cases option <;> cases kind <;> simp [set, get?, SystemOption.kind]

/-- The option of a kind is of that kind. -/
theorem kind_of_get? {options : OptionSet Expansion} {kind : OptionKind}
    {option : SystemOption Expansion} (hget : options.get? kind = some option) :
    option.kind = kind := by
  cases kind <;> simp only [get?, Option.map_eq_some_iff] at hget <;>
    obtain ⟨_, _, rfl⟩ := hget <;> rfl

end OptionSet

end ODataOptions
