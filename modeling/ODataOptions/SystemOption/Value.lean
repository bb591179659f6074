import ODataOptions.Parser.Basic
import ODataOptions.SystemOption.Basic
import ODataOptions.Text.Numeral

/-!
# Parsing of simple option values

Numbers, truth values and numbers of levels.
-/

namespace ODataOptions

namespace Parser

/-- Whether a number can be the value of an option: it must fit 32 bits, and may be zero only where
that is allowed. -/
def admitsNumber (zeroAllowed : Bool) (value : Nat) : Bool :=
  value < UInt32.size && (zeroAllowed || 0 < value)

/-- Parses a whole number, the value of the option of that name. -/
def wholeNumber (option : String) (zeroAllowed : Bool) : Parser Nat := do
  let token ← expect .integer
  match (Text.natural? token.text).filter (admitsNumber zeroAllowed) with
  | some value => return value
  | none => throw { problem := .wrongValue option token.text, span := token.span }

def truthValue : Parser Bool := return Text.sameWord (← expect .boolean).text "true"

end Parser

open ODataOptions.Parser

/-- Parses `max` or a positive number of levels. -/
def Levels.parse : Parser Levels := do
  if ← accept .max then return .max
  else return .depth (← wholeNumber OptionKind.levels.keyword false)

end ODataOptions
