import ODataOptions.Expression.Typing
import ODataOptions.Limits
import ODataOptions.Schema.Basic
import ODataOptions.Token.Lexer

/-!
# Scopes

What the names of a request are resolved against: the schema, the parameter aliases that the request
defines, and the limits that apply to it.
-/

namespace ODataOptions

/-- A text that expressions refer to by a name. -/
structure ParameterAlias where
  name : String
  value : String
deriving DecidableEq, Repr, Inhabited

instance : Named ParameterAlias := ⟨ParameterAlias.name⟩

abbrev AliasTable := NameTable ParameterAlias

/-- What the names of a request are resolved against. -/
structure Scope where
  schema : Schema
  aliases : AliasTable := ∅
  limits : Limits := {}

namespace Scope

/-- The class of the value of a parameter alias.  It is known only where the alias is defined and
its text is a single literal. -/
def parameterType (scope : Scope) (name : String) : ExpressionType :=
  match scope.aliases.find? name with
  | some definition =>
    match lexemes definition.value with
    | [.token token] => .ofToken token
    | _ => .untyped
  | none => .untyped

end Scope

end ODataOptions
