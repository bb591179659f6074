import Mathlib.Data.Nat.Digits.Defs
import ODataOptions.Proofs.Text.Numerals

/-!
# Decimal notation

A numeral is any number of decimal digits, with a minus before them or not.  Leading zeros are allowed.
Its value is given by the places of the digits, without any bound, and it is the number that is read
from the text of the numeral.
-/

namespace ODataOptions

/-- Decimal digits, the most significant one first, and whether a minus stands before them. -/
structure Numeral where
  negative : Bool
  digits : List (Fin 10)
deriving DecidableEq, Repr

namespace Numeral

variable (numeral : Numeral)

/-- The number that the digits stand for, each at its place. -/
def magnitude : Nat := Nat.ofDigits 10 (numeral.digits.reverse.map Fin.val)

def value : Int := if numeral.negative then -(numeral.magnitude : Int) else numeral.magnitude

def digitChar (digit : Fin 10) : Char := Nat.digitChar digit.val

def chars : List Char := numeral.digits.map digitChar

def text : String :=
  String.ofList (if numeral.negative then '-' :: numeral.chars else numeral.chars)

/-! ## Characters -/

theorem isDigit_digitChar (digit : Fin 10) : (digitChar digit).isDigit = true := by
  revert digit
  decide

theorem toNat_digitChar (digit : Fin 10) : (digitChar digit).toNat - '0'.toNat = digit.val := by
  revert digit
  decide

theorem isDigit_of_mem_chars {c : Char} (hmem : c ∈ numeral.chars) : c.isDigit = true := by
  obtain ⟨digit, -, rfl⟩ := List.mem_map.mp hmem
  exact isDigit_digitChar digit

theorem chars_eq_nil_iff : numeral.chars = [] ↔ numeral.digits = [] := List.map_eq_nil_iff

theorem toList_text_of_negative (hsign : numeral.negative = true) :
    numeral.text.toList = '-' :: numeral.chars := by
  rw [text, String.toList_ofList, if_pos hsign]

theorem toList_text_of_plain (hsign : numeral.negative = false) :
    numeral.text.toList = numeral.chars := by
  rw [text, String.toList_ofList, if_neg (by simp [hsign])]

/-! ## Reading -/

/-- Going on from a number, the digits put it as many places to the left as they are. -/
theorem foldl_digits (digits : List (Fin 10)) (start : Nat) :
    (digits.map digitChar).foldl (fun value digit => 10 * value + (digit.toNat - '0'.toNat)) start =
      10 ^ digits.length * start + Nat.ofDigits 10 (digits.reverse.map Fin.val) := by
  induction digits generalizing start with
  | nil => simp
  | cons digit digits ih =>
    rw [List.map_cons, List.foldl_cons, ih, toNat_digitChar, List.reverse_cons, List.map_append,
      Nat.ofDigits_append, List.length_map, List.length_reverse, List.map_singleton,
      Nat.ofDigits_singleton, List.length_cons]
    ring

/-- Reading digit by digit gives what the places add up to. -/
theorem ofDigits_chars : Text.ofDigits numeral.chars = numeral.magnitude := by
  rw [Text.ofDigits, chars, foldl_digits, Nat.mul_zero, Nat.zero_add, magnitude]

theorem digits?_chars :
    Text.digits? numeral.chars = if numeral.digits = [] then none else some numeral.magnitude := by
  have hall : numeral.chars.all Char.isDigit = true :=
    List.all_eq_true.mpr fun _ hmem => numeral.isDigit_of_mem_chars hmem
  rw [Text.digits?, ofDigits_chars]
  simp [hall, chars_eq_nil_iff]

/-- A number without a sign is read from digits alone. -/
theorem natural?_text :
    Text.natural? numeral.text =
      if numeral.negative = true ∨ numeral.digits = [] then none else some numeral.magnitude := by
  cases hsign : numeral.negative with
  | true => rw [Text.natural?_of_minus (numeral.toList_text_of_negative hsign), if_pos (.inl rfl)]
  | false =>
    have htext := numeral.toList_text_of_plain hsign
    rw [Text.natural?_of_digits fun _ hmem => numeral.isDigit_of_mem_chars (htext ▸ hmem), htext,
      digits?_chars]
    simp

/-- A number with or without a sign is read from digits, whatever their sign. -/
theorem integer?_text :
    Text.integer? numeral.text = if numeral.digits = [] then none else some numeral.value := by
  cases hsign : numeral.negative with
  | true =>
    have hvalue : numeral.value = -(numeral.magnitude : Int) := if_pos hsign
    rw [Text.integer?_of_minus (numeral.toList_text_of_negative hsign), digits?_chars, hvalue]
    split <;> rfl
  | false =>
    have htext := numeral.toList_text_of_plain hsign
    have hvalue : numeral.value = numeral.magnitude := if_neg (by simp [hsign])
    rw [Text.integer?_of_digits fun _ hmem => numeral.isDigit_of_mem_chars (htext ▸ hmem), htext,
      digits?_chars, hvalue]
    split <;> rfl

/-! ## Numerals as tokens -/

/-- A numeral that has digits is one token of its kind. -/
theorem isToken_text (hdigits : numeral.digits ≠ []) : Word.IsToken ⟨.integer, numeral.text⟩ :=
  isToken_of_digits numeral.negative String.toList_ofList
    (fun hnil => hdigits (numeral.chars_eq_nil_iff.mp hnil)) fun _ hmem =>
      numeral.isDigit_of_mem_chars hmem

end Numeral

end ODataOptions
