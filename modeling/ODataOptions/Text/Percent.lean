import ODataOptions.Text.Utf8

/-!
# Percent-encoded text

In a query string a byte may be written as a percent sign and two hexadecimal digits.  A percent
sign without these stands for itself.
-/

namespace ODataOptions.Text.Percent

def hexValue? (c : Char) : Option Nat :=
  if '0' ≤ c && c ≤ '9' then some (c.toNat - '0'.toNat)
  else if 'a' ≤ c && c ≤ 'f' then some (c.toNat - 'a'.toNat + 10)
  else if 'A' ≤ c && c ≤ 'F' then some (c.toNat - 'A'.toNat + 10)
  else none

def byte? (high low : Char) : Option UInt8 := do
  return UInt8.ofNat (16 * (← hexValue? high) + (← hexValue? low))

def bytes : List Char → List UInt8
  | [] => []
  | '%' :: high :: low :: text =>
    match byte? high low with
    | some byte => byte :: bytes text
    | none => String.utf8EncodeChar '%' ++ bytes (high :: low :: text)
  | c :: text => String.utf8EncodeChar c ++ bytes text

def decode (text : List Char) : String := String.ofList (Utf8.decode (bytes text))

end ODataOptions.Text.Percent
