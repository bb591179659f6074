/-!
# Text from bytes

UTF-8 is read so that no input is refused: every part that is not UTF-8 yields one replacement
character.  Such a part is as long as it could have been the beginning of a character.
-/

namespace ODataOptions.Text.Utf8

/-- The character that stands for a part that is not UTF-8. -/
def replacement : Char := '\uFFFD'

/-- A character whose first bytes have been read. -/
structure Unfinished where
  /-- The number that the bytes so far stand for. -/
  value : Nat
  /-- How many bytes are missing, apart from the next one. -/
  further : Nat
  /-- The least next byte. -/
  low : Nat := 0x80
  /-- The greatest next byte. -/
  high : Nat := 0xBF
deriving DecidableEq, Repr

/-- What there is to write once a byte has been read, and the character that it leaves
unfinished. -/
abbrev Step := List Char × Option Unfinished

/-- The first byte of a character.  The range of the byte behind it keeps out longer forms than
needed, surrogates and numbers beyond the last character. -/
def lead (byte : Nat) : Step :=
  if byte < 0x80 then ([Char.ofNat byte], none)
  else if byte < 0xC2 then ([replacement], none)
  else if byte < 0xE0 then ([], some { value := byte - 0xC0, further := 0 })
  else if byte = 0xE0 then ([], some { value := 0, further := 1, low := 0xA0 })
  else if byte = 0xED then ([], some { value := 0xD, further := 1, high := 0x9F })
  else if byte < 0xF0 then ([], some { value := byte - 0xE0, further := 1 })
  else if byte = 0xF0 then ([], some { value := 0, further := 2, low := 0x90 })
  else if byte < 0xF4 then ([], some { value := byte - 0xF0, further := 2 })
  else if byte = 0xF4 then ([], some { value := 4, further := 2, high := 0x8F })
  else ([replacement], none)

/-- A byte behind an unfinished character.  If it does not belong to the character, it is the first
byte of another one. -/
def follow (unfinished : Unfinished) (byte : Nat) : Step :=
  if unfinished.low ≤ byte && byte ≤ unfinished.high then
    let value := 64 * unfinished.value + (byte - 0x80)
    match unfinished.further with
    | 0 => ([Char.ofNat value], none)
    | further + 1 => ([], some { value, further })
  else
    let (text, next) := lead byte
    (replacement :: text, next)

/-- The text of some bytes behind what has been read of a character, if anything. -/
def decodeBehind : Option Unfinished → List UInt8 → List Char
  | none, [] => []
  | some _, [] => [replacement]
  | state, byte :: bytes =>
    let (text, next) :=
      match state with
      | none => lead byte.toNat
      | some unfinished => follow unfinished byte.toNat
    text ++ decodeBehind next bytes

def decode (bytes : List UInt8) : List Char := decodeBehind none bytes

def encode (text : List Char) : List UInt8 := text.flatMap String.utf8EncodeChar

end ODataOptions.Text.Utf8
