/-!
# Quoted text

A text in quotes is told apart from the quotes around it in one of two ways: a quote within it is
doubled, or a backslash is put before it.  For either way, `encode` writes the inner text and
`decode` reads it back.
-/

namespace ODataOptions.Text

/-- The text between two quotes.  A text that does not have both of them is left as it is. -/
def unquoted (quote : Char) (text : List Char) : List Char :=
  match text with
  | first :: rest =>
    if first = quote && rest.getLast? = some quote then rest.dropLast else text
  | [] => []

@[simp]
theorem unquoted_quoted (quote : Char) (text : List Char) :
    unquoted quote (quote :: (text ++ [quote])) = text := by
  simp [unquoted]

namespace Doubled

/-- Writes each quote twice. -/
def encode (quote : Char) (text : List Char) : List Char :=
  text.flatMap fun c => if c = quote then [c, c] else [c]

/-- Reads each pair of quotes as one. -/
def decode (quote : Char) : List Char → List Char
  | [] => []
  | [c] => [c]
  | c :: d :: text =>
    if c = quote && d = quote then quote :: decode quote text
    else c :: decode quote (d :: text)

theorem decode_cons_of_ne {quote c : Char} (text : List Char) (hne : c ≠ quote) :
    decode quote (c :: text) = c :: decode quote text := by
  cases text <;> simp [decode, hne]

theorem decode_encode (quote : Char) (text : List Char) :
    decode quote (encode quote text) = text := by
  induction text with
  | nil => rfl
  | cons c text ih =>
    by_cases h : c = quote
    · simpa [encode, decode, h] using ih
    · simpa [encode, h, decode_cons_of_ne] using ih

end Doubled

namespace Escaped

/-- Writes a backslash before each quote and each backslash. -/
def encode (quote : Char) (text : List Char) : List Char :=
  text.flatMap fun c => if c = quote || c = '\\' then ['\\', c] else [c]

/-- Reads a backslash with the character behind it as that character.  A backslash with nothing
behind it is dropped. -/
def decode : List Char → List Char
  | [] => []
  | '\\' :: c :: text => c :: decode text
  | ['\\'] => []
  | c :: text => c :: decode text

theorem decode_cons_of_ne {c : Char} (text : List Char) (hne : c ≠ '\\') :
    decode (c :: text) = c :: decode text := by
  cases text <;> simp [decode, hne]

theorem decode_encode (quote : Char) (text : List Char) :
    decode (encode quote text) = text := by
  induction text with
  | nil => rfl
  | cons c text ih =>
    by_cases h : c = quote ∨ c = '\\'
    · simpa [encode, decode, h] using ih
    · rw [not_or] at h
      simpa [encode, h, decode_cons_of_ne] using ih

end Escaped

end ODataOptions.Text
