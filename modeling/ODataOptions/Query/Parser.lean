import ODataOptions.Expand.Parser
import ODataOptions.Parser.Text
import ODataOptions.Query.Basic
import ODataOptions.Text.Percent

/-!
# Parsing of query strings

A query string is split into parts at its ampersands, and a part into a name and a value at its
first equals sign; then both are percent-decoded.  A name that begins with `@` defines a parameter
alias, one that begins with `$` is that of a system query option, and any other option is kept as it
is.  The aliases are collected first, so an option may refer to one that is defined behind it.
-/

namespace ODataOptions

namespace Text

def split (separator : Char) : List Char → List (List Char)
  | [] => [[]]
  | c :: text =>
    if c = separator then [] :: split separator text
    else
      match split separator text with
      | piece :: pieces => (c :: piece) :: pieces
      | [] => [[c]]

end Text

structure QueryPart where
  name : String
  value : String
deriving DecidableEq, Repr, Inhabited

namespace QueryPart

/-- The name and the value that a written part stands for. -/
def ofText (text : List Char) : QueryPart where
  name := Text.Percent.decode (text.takeWhile (· ≠ '='))
  value := Text.Percent.decode ((text.dropWhile (· ≠ '=')).drop 1)

/-- The parts of a query string, which may begin with a question mark.  Empty parts do not count. -/
def listOf (query : String) : List QueryPart :=
  let text :=
    match query.toList with
    | '?' :: text => text
    | text => text
  ((Text.split '&' text).filter (· ≠ [])).map ofText

def parameterAlias? (part : QueryPart) : Option ParameterAlias :=
  match part.name.toList with
  | '@' :: name => some ⟨String.ofList name, part.value⟩
  | _ => none

def isSystem (part : QueryPart) : Bool := part.name.toList.head? = some '$'

/-- Whether a part is neither an alias nor named like a system query option. -/
def isCustom (part : QueryPart) : Bool := part.parameterAlias?.isNone && !part.isSystem

end QueryPart

namespace SystemOption

/-- Reads the value of a system query option of a request for entities of the type `owner`.  The
number of levels belongs to an expansion, so it is refused here. -/
def read (scope : Scope) (owner : StructuredType) (kind : OptionKind) (value : String) :
    Except Fault (SystemOption Expand) := do
  let tokens ← tokensOrFault value
  if kind = .levels then
    throw { problem := .levelsAtTop, span := .ofLength value.utf8ByteSize }
  (Parser.complete kind (parseValue scope (Expand.parse scope) owner kind)).onTokens tokens

end SystemOption

namespace Query

def addOption (scope : Scope) (owner : StructuredType) (options : OptionSet Expand)
    (part : QueryPart) : Except Fault (OptionSet Expand) := do
  let span := Span.ofLength part.name.utf8ByteSize
  match OptionKind.ofKeyword? part.name with
  | none => throw { problem := .unknownOption part.name, span }
  | some kind =>
    match options.insert (← SystemOption.read scope owner kind part.value) with
    | .ok options => return options
    | .error _ => throw { problem := .doubleOption kind, span }

def read (schema : Schema) (limits : Limits) (owner : StructuredType) (query : String) :
    Except Fault Query := do
  let length := query.utf8ByteSize
  if limits.queryLength < length then
    throw { problem := .queryTooLong length limits.queryLength, span := .ofLength length }
  let parts := QueryPart.listOf query
  let aliases := NameTable.ofList (parts.filterMap QueryPart.parameterAlias?)
  let system ←
    (parts.filter QueryPart.isSystem).foldlM (addOption { schema, aliases, limits } owner) ∅
  let custom := (parts.filter QueryPart.isCustom).map fun part => (part.name, part.value)
  return { system, aliases, custom }

end Query

end ODataOptions
