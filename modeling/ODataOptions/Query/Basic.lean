import ODataOptions.Expand.Printer
import ODataOptions.Expression.Scope

/-!
# Queries

What a query string asks for: system query options, the parameter aliases that their values refer to,
and options of the service's own.
-/

namespace ODataOptions

namespace SystemOption

def text (option : SystemOption Expand) : String := (option.map Expand.print).print

end SystemOption

namespace OptionSet

def text (options : OptionSet Expand) : String := (options.map Expand.print).print

end OptionSet

structure Query where
  system : OptionSet Expand := ∅
  aliases : AliasTable := ∅
  /-- Names and values of the other options, in the order given. -/
  custom : List (String × String) := []
deriving DecidableEq

namespace Query

def printParts (query : Query) : List String :=
  query.system.toList.map SystemOption.text ++
  query.aliases.entries.map (fun definition => "@" ++ definition.name ++ "=" ++ definition.value) ++
  query.custom.map (fun (name, value) => name ++ "=" ++ value)

def print (query : Query) : String := "&".intercalate query.printParts

end Query

end ODataOptions
