import ODataOptions.Schema.Type

/-!
# Common expressions

The expressions of `$filter` and `$orderby`.  Names in them are resolved: a member carries the
properties that its path goes through, not their names alone.
-/

namespace ODataOptions

/-- A constant.  Numbers with a fraction, dates and GUIDs keep their text as written. -/
inductive Literal
  | null
  | boolean (value : Bool)
  | integer (value : Int)
  | decimal (text : String)
  | string (text : String)
  | date (text : String)
  | dateTimeOffset (text : String)
  | guid (text : String)
deriving DecidableEq, Repr, Inhabited

inductive BinaryOperator
  | or
  | and
  | eq
  | ne
  | gt
  | ge
  | lt
  | le
  | add
  | sub
  | mul
  | div
  | mod
deriving DecidableEq, Repr, Inhabited

namespace BinaryOperator

def keyword : BinaryOperator → String
  | .or => "or"
  | .and => "and"
  | .eq => "eq"
  | .ne => "ne"
  | .gt => "gt"
  | .ge => "ge"
  | .lt => "lt"
  | .le => "le"
  | .add => "add"
  | .sub => "sub"
  | .mul => "mul"
  | .div => "div"
  | .mod => "mod"

def isComparison : BinaryOperator → Bool
  | .eq | .ne | .gt | .ge | .lt | .le => true
  | _ => false

end BinaryOperator

inductive Method
  | contains
  | startsWith
  | endsWith
  | length
  | indexOf
  | substring
  | toLower
  | toUpper
  | trim
  | concat
  | round
  | floor
  | ceiling
  | year
  | month
  | day
deriving DecidableEq, Repr, Inhabited

namespace Method

def name : Method → String
  | .contains => "contains"
  | .startsWith => "startswith"
  | .endsWith => "endswith"
  | .length => "length"
  | .indexOf => "indexof"
  | .substring => "substring"
  | .toLower => "tolower"
  | .toUpper => "toupper"
  | .trim => "trim"
  | .concat => "concat"
  | .round => "round"
  | .floor => "floor"
  | .ceiling => "ceiling"
  | .year => "year"
  | .month => "month"
  | .day => "day"

def all : List Method :=
  [.contains, .startsWith, .endsWith, .length, .indexOf, .substring, .toLower, .toUpper, .trim,
   .concat, .round, .floor, .ceiling, .year, .month, .day]

/-- The method of a name, which must be spelled exactly. -/
def ofName? (text : String) : Option Method := all.find? (·.name = text)

end Method

inductive Expression
  | literal (value : Literal)
  | member (path : List Member)
  /-- A parameter alias, named without the sign before it. -/
  | parameter (name : String)
  | not (operand : Expression)
  | binary (operator : BinaryOperator) (left right : Expression)
  | call (method : Method) (arguments : List Expression)
deriving Inhabited

namespace Expression

mutual

/-- Whether two expressions are the same. -/
def same : Expression → Expression → Bool
  | .literal a, .literal b => a = b
  | .member a, .member b => a = b
  | .parameter a, .parameter b => a = b
  | .not a, .not b => same a b
  | .binary f a b, .binary g c d => f = g && same a c && same b d
  | .call f as, .call g bs => f = g && sameAll as bs
  | _, _ => false

def sameAll : List Expression → List Expression → Bool
  | [], [] => true
  | a :: as, b :: bs => same a b && sameAll as bs
  | _, _ => false

end

mutual

theorem same_iff (a b : Expression) : same a b = true ↔ a = b := by
  cases a <;> cases b <;> simp [same]
  case not.not a b => exact same_iff a b
  case binary.binary f a b g c d => rw [same_iff a c, same_iff b d, and_assoc]
  case call.call f as g bs => exact fun _ => sameAll_iff as bs

theorem sameAll_iff (as bs : List Expression) : sameAll as bs = true ↔ as = bs := by
  match as, bs with
  | [], [] => simp [sameAll]
  | [], _ :: _ => simp [sameAll]
  | _ :: _, [] => simp [sameAll]
  | a :: as, b :: bs => simp [sameAll, same_iff a b, sameAll_iff as bs]

end

instance : DecidableEq Expression := fun a b => decidable_of_iff _ (same_iff a b)

end Expression

end ODataOptions
