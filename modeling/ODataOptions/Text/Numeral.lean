/-!
# Decimal numerals

The reading of whole numbers from their decimal digits.  The numbers have no bound here; where a
value must fit a range, its reader says so.
-/

namespace ODataOptions.Text

/-- The number that digits stand for, most significant digit first. -/
def ofDigits (digits : List Char) : Nat :=
  digits.foldl (fun value digit => 10 * value + (digit.toNat - '0'.toNat)) 0

/-- Reads one or more digits and nothing else. -/
def digits? (text : List Char) : Option Nat :=
  if text ≠ [] && text.all Char.isDigit then some (ofDigits text) else none

def natural? (text : String) : Option Nat :=
  match text.toList with
  | '+' :: digits => digits? digits
  | digits => digits? digits

def integer? (text : String) : Option Int :=
  match text.toList with
  | '-' :: digits => (digits? digits).map fun value => -(value : Int)
  | '+' :: digits => (digits? digits).map Int.ofNat
  | digits => (digits? digits).map Int.ofNat

end ODataOptions.Text
