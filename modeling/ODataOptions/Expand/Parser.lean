import ODataOptions.Expand.Basic
import ODataOptions.Expression.Filter
import ODataOptions.OrderBy.Parser
import ODataOptions.Search.Parser
import ODataOptions.Select.Parser
import ODataOptions.SystemOption.Value

/-!
# Parsing of expansions

An item of `$expand` is a star or a path.  A path begins at a type or at a derived one, goes through
complex properties, each of which may be narrowed, and ends at a navigation property or a star.
Behind it may stand the derived type that the navigation property is narrowed to, then `/$ref` or
`/$count`, and then options in parentheses, which apply to the type that the path has come to.

An expansion among these options is one level further in, and the number of levels is limited.
-/

namespace ODataOptions

open ODataOptions.Parser

/-! ## Options in general -/

namespace SystemOption

/-- Parses the value of an option that applies to the type `owner`, with the given parser for
expansions. -/
def parseValue {Expansion : Type} (scope : Scope) (expansion : StructuredType → Parser Expansion)
    (owner : StructuredType) : OptionKind → Parser (SystemOption Expansion)
  | .count => return .count (← truthValue)
  | .expand => return .expand (← expansion owner)
  | .filter => return .filter (← Expression.parseFilter scope owner)
  | .levels => return .levels (← Levels.parse)
  | .orderBy => return .orderBy (← OrderBy.parse scope owner)
  | .search => return .search (← SearchExpression.parse scope.limits)
  | .select => return .select (← Select.parse scope.schema owner)
  | .skip => return .skip (← wholeNumber OptionKind.skip.keyword true)
  | .top => return .top (← wholeNumber OptionKind.top.keyword true)

end SystemOption

namespace OptionSet

variable {Expansion : Type}

/-- The kind of option that a token names, if the context allows it. -/
def allowedKind? (context : OptionContext) (token : Token) : Option OptionKind :=
  match token.kind with
  | .option kind => if context.allows kind then some kind else none
  | _ => none

/-- Where the keyword of an option of each kind stands. -/
abbrev Places := List (OptionKind × Span)

/-- What has come of the options so far: the set of them and, in a store of its own, where their keywords
stand. -/
structure Gathered (Expansion : Type) where
  options : OptionSet Expansion := .empty
  places : Places := []

/-- Reports an option of a kind that is given already.  It points at the first one if the place of that one
is known. -/
def Gathered.repetition (gathered : Gathered Expansion) (kind : OptionKind) (keyword : Token) : Fault :=
  let fault : Fault := { problem := .doubleOption kind, span := keyword.span }
  match gathered.places.lookup kind with
  | some first => fault.withRelated first "first given here"
  | none => fault

def parseOption (value : OptionKind → Parser (SystemOption Expansion)) (context : OptionContext)
    (gathered : Gathered Expansion) : Parser (Gathered Expansion) := do
  let keyword ← current
  match allowedKind? context keyword with
  | none => failHere (.optionExpected keyword)
  | some kind =>
    let _ ← next
    let _ ← expect .equals
    match gathered.options.insert (← value kind) with
    | .ok options => return { options, places := (kind, keyword.span) :: gathered.places }
    | .error _ => throw (gathered.repetition kind keyword)

/-- Parses options in parentheses, if there are any. -/
def parse (value : OptionKind → Parser (SystemOption Expansion)) (context : OptionContext) :
    Parser (OptionSet Expansion) := do
  if ← accept .openParen then
    let gathered ← separatedFrom (parseOption value context) .semicolon {}
    let _ ← expect .closeParen
    return gathered.options
  else return .empty

end OptionSet

/-! ## Paths -/

namespace PathSegment

def complexProperty? (schema : Schema) (owner : StructuredType) (token : Token) :
    Option (Property × StructuredType) := do
  guard (token.kind = .identifier)
  let property ← schema.property? owner token.text
  return (property, ← property.complexType?)

/-- A path as far as it has been parsed, and the type that it has come to. -/
structure Progress where
  segments : List PathSegment := []
  owner : StructuredType

/-- Goes on through a complex property, if the current token names one. -/
def parseComplex? (schema : Schema) (path : Progress) : Parser (Option Progress) := do
  match complexProperty? schema path.owner (← current) with
  | none => return none
  | some (property, type) =>
    let _ ← next
    let _ ← expect .slash
    let cast ← type.parseCast? schema
    if cast.isSome then
      let _ ← expect .slash
    return some ⟨path.segments ++ [.complex property cast], cast.getD type⟩

/-- Narrows a navigation property to a derived type.  That of a single entity and that of the members
of a collection are kept apart. -/
def narrowed (target : Navigation) (cast : Option StructuredType) : PathSegment :=
  if target.collection then .navigation target none cast else .navigation target cast none

/-- What a path ends with: the segments of it, whether they end in a star, the type that they lead
to, and whether a slash has been consumed behind them. -/
structure Target where
  segments : List PathSegment
  star : Bool
  type : StructuredType
  slash : Bool

/-- Goes on along the navigation property that the token just consumed names, and narrows it if a
cast follows. -/
def parseNavigation (schema : Schema) (path : Progress) (token : Token) : Parser Target := do
  match schema.navigation? path.owner token.text with
  | none => throw { problem := .navigationNotInType token.text path.owner, span := token.span }
  | some target =>
    let slash ← accept .slash
    let cast ← if slash then target.targetType.parseCast? schema else pure none
    return {
      segments := path.segments ++ [narrowed target cast]
      star := false
      type := cast.getD target.targetType
      slash := slash && cast.isNone }

/-- Parses a path from the type `owner` up to a navigation property or a star. -/
def parsePath (schema : Schema) (owner : StructuredType) : Parser Target := do
  let path ← iterate (parseComplex? schema) { owner }
  match ← take? .identifier with
  | some token => parseNavigation schema path token
  | none =>
    if ← accept .star then
      return { segments := path.segments, star := true, type := path.owner, slash := false }
    else unexpected "navigation property or '*'"

/-- Parses `$ref` or `$count` behind a slash, if there is one.  The slash may have been consumed
already. -/
def parseSuffix (slash : Bool) : Parser (List PathSegment × OptionContext) := do
  let slash ← if slash then pure true else accept .slash
  if slash then
    if ← accept .ref then return ([.ref], .references)
    else if ← accept (.option .count) then return ([.count], .counting)
    else unexpected "$ref or $count"
  else return ([], .plain)

end PathSegment

/-! ## Items -/

namespace ExpandItem

/-- Parses what may follow a star that stands alone: `/$ref`, or a number of levels in
parentheses. -/
def parseStar : Parser ExpandItem := do
  if ← accept .slash then
    let _ ← expect .ref
    return .star true none
  else if ← accept .openParen then
    let _ ← expect (.option .levels)
    let _ ← expect .equals
    let levels ← Levels.parse
    let _ ← expect .closeParen
    return .star false levels
  else return .star false none

def parsePath (scope : Scope) (expansion : StructuredType → Parser Expand)
    (cast : Option StructuredType) (owner : StructuredType) : Parser ExpandItem := do
  let target ← PathSegment.parsePath scope.schema owner
  let (suffix, context) ← PathSegment.parseSuffix target.slash
  let options ← OptionSet.parse (SystemOption.parseValue scope expansion target.type) context
  return .path cast (target.segments ++ suffix) target.star options

def parse (scope : Scope) (expansion : StructuredType → Parser Expand) (owner : StructuredType) :
    Parser ExpandItem := do
  if ← accept .star then parseStar
  else
    match ← owner.parseCast? scope.schema with
    | none => parsePath scope expansion none owner
    | some cast =>
      let _ ← expect .slash
      parsePath scope expansion cast cast

end ExpandItem

namespace Expand

/-- Parses an expansion of entities of the type `owner` that has at most `levels` levels. -/
def parseWithin (scope : Scope) : Nat → StructuredType → Parser Expand
  | 0, _ => failHere (.expandTooDeep scope.limits.expandDepth)
  | levels + 1, owner => separated (ExpandItem.parse scope (parseWithin scope levels) owner) .comma

def parse (scope : Scope) (owner : StructuredType) : Parser Expand :=
  parseWithin scope scope.limits.expandDepth owner

/-- Parses the options of an item that leads to the type `owner`.  An expansion among them is one
level further in than the item. -/
def parseOptions (scope : Scope) (owner : StructuredType) (context : OptionContext) :
    Parser (OptionSet Expand) :=
  OptionSet.parse
    (SystemOption.parseValue scope (parseWithin scope (scope.limits.expandDepth - 1)) owner) context

end Expand

end ODataOptions
