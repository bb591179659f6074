import ODataOptions.Proofs.Token.Written
import ODataOptions.Text.Numeral

/-!
# Numbers as texts

The decimal digits of a number are read back as that number, and together with its sign they are one
token.
-/

namespace ODataOptions

open Pattern TokenPattern

namespace Text

theorem isDigit_of_mem_toDigits {value : Nat} {c : Char} (hmem : c ∈ Nat.toDigits 10 value) :
    c.isDigit = true :=
  Nat.isDigit_of_mem_toDigits (by decide) (by decide) hmem

theorem digits?_toDigits (value : Nat) : digits? (Nat.toDigits 10 value) = some value := by
  have hdigits : (Nat.toDigits 10 value).all Char.isDigit = true :=
    List.all_eq_true.mpr fun _ hmem => isDigit_of_mem_toDigits hmem
  have hvalue : ofDigits (Nat.toDigits 10 value) = value := by
    rw [ofDigits, ← Nat.ofDigitChars_eq_foldl, Nat.ofDigitChars_ten_toDigits]
  rw [digits?, if_pos (by simp [hdigits, Nat.toDigits_ne_nil]), hvalue]

/-! ## Signs -/

section Signs

variable {text : String}

/-- Digits alone have no sign that would be taken off. -/
theorem natural?_of_digits (hdigits : ∀ c ∈ text.toList, c.isDigit = true) :
    natural? text = digits? text.toList := by
  rw [natural?]
  split
  · next rest hplus =>
    rw [hplus] at hdigits
    cases hdigits '+' List.mem_cons_self
  · rfl

theorem natural?_of_minus {digits : List Char} (htext : text.toList = '-' :: digits) :
    natural? text = none := by
  rw [natural?, htext]
  rfl

theorem integer?_of_digits (hdigits : ∀ c ∈ text.toList, c.isDigit = true) :
    integer? text = (digits? text.toList).map Int.ofNat := by
  rw [integer?]
  split
  · next rest hminus =>
    rw [hminus] at hdigits
    cases hdigits '-' List.mem_cons_self
  · next rest hplus =>
    rw [hplus] at hdigits
    cases hdigits '+' List.mem_cons_self
  · rfl

theorem integer?_of_minus {digits : List Char} (htext : text.toList = '-' :: digits) :
    integer? text = (digits? digits).map fun value : Nat => -(value : Int) := by
  rw [integer?, htext]
  change ((digits? digits).bind fun value => some (value : Int)).map (fun value => -value) = _
  cases digits? digits <;> rfl

end Signs

theorem natural?_toString (value : Nat) : natural? (toString value) = some value := by
  have htext : (toString value).toList = Nat.toDigits 10 value := by
    rw [Nat.toString_eq_repr, Nat.toList_repr]
  rw [natural?_of_digits fun _ hmem => isDigit_of_mem_toDigits (htext ▸ hmem), htext,
    digits?_toDigits]

theorem toList_toString_of_nonneg {value : Int} (hsign : 0 ≤ value) :
    (toString value).toList = Nat.toDigits 10 value.toNat := by
  rw [Int.toString_eq_repr, Int.repr_eq_if, if_pos hsign, Nat.toList_repr]

theorem toList_toString_of_neg {value : Int} (hsign : value < 0) :
    (toString value).toList = '-' :: Nat.toDigits 10 (-value).toNat := by
  rw [Int.toString_eq_repr, Int.repr_eq_if, if_neg (Int.not_le.mpr hsign), String.toList_append,
    Nat.toList_repr]
  rfl

/-- A printed number is read back, with its sign. -/
theorem integer?_toString (value : Int) : integer? (toString value) = some value := by
  rcases Int.lt_or_le value 0 with hsign | hsign
  · rw [integer?_of_minus (toList_toString_of_neg hsign), digits?_toDigits, Option.map_some,
      Int.toNat_of_nonneg (by omega), Int.neg_neg]
  · have htext := toList_toString_of_nonneg hsign
    rw [integer?_of_digits fun _ hmem => isDigit_of_mem_toDigits (htext ▸ hmem), htext,
      digits?_toDigits, Option.map_some, Int.ofNat_eq_natCast, Int.toNat_of_nonneg hsign]

end Text

/-! ## Numbers as tokens -/

theorem matches_digits {digits : List Char} (hdigits : ∀ c ∈ digits, c.isDigit = true) :
    Matches (many digit) digits := by
  induction digits with
  | nil => exact .done
  | cons c digits ih =>
    obtain ⟨hc, hrest⟩ := List.forall_mem_cons.mp hdigits
    exact .more (.oneOf hc) (ih hrest)

/-- The characters that a number begins with. -/
def numberStarts : List Char := ['-', '0', '1', '2', '3', '4', '5', '6', '7', '8', '9']

theorem mem_numberStarts {c : Char} (hdigit : c.isDigit = true) : c ∈ numberStarts := by
  have hbounds : 48 ≤ c.toNat ∧ c.toNat ≤ 57 := Char.isDigit_iff_toNat.mp hdigit
  have hall : ∀ code, 48 ≤ code → code ≤ 57 → Char.ofNat code ∈ numberStarts := by
    intro code hleast hmost
    have hcode : code - 48 < 10 := by omega
    have hcheck : ∀ digit < 10, Char.ofNat (48 + digit) ∈ numberStarts := by decide
    have hmem := hcheck (code - 48) hcode
    rwa [Nat.add_sub_cancel' hleast] at hmem
  rw [← Char.ofNat_toNat c]
  exact hall c.toNat hbounds.1 hbounds.2

/-- No pattern that comes before that of numbers begins like a number. -/
theorem longestOf_number {c : Char} {text : List Char} (hstart : c ∈ numberStarts)
    (hmatches : Matches integer (c :: text)) :
    longestOf (c :: text) all = some (.integer, (c :: text).length) := by
  have hnothing : ∀ c ∈ numberStarts, ∀ entry ∈ all.take 13,
      (entry.2.derivative c).isNothing = true := by
    have hcheck : (numberStarts.all fun c =>
        (all.take 13).all fun entry => (entry.2.derivative c).isNothing) = true := by
      decide
    exact fun c hc => List.all_eq_true.mp (List.all_eq_true.mp hcheck c hc)
  have hsplit : all = all.take 13 ++ (.integer, integer) :: all.drop 14 := rfl
  rw [hsplit]
  refine longestOf_append_cons (fun entry hmem => ?_) ?_
  · exact longest_of_isNothing text (nullable_of_mem_all entry (List.mem_of_mem_take hmem))
      (hnothing c hstart entry hmem)
  · refine longest_eq_some_iff.mpr ⟨Nat.le_refl _, ?_, fun longer hlt hle => ?_⟩
    · rw [List.take_length]
      exact hmatches
    · exact absurd hle (Nat.not_le.mpr hlt)

/-- What matches the pattern of integers is read as one integer token. -/
theorem isToken_of_number {text : String} {c : Char} {chars : List Char}
    (htext : text.toList = c :: chars) (hstart : c ∈ numberStarts)
    (hmatches : Matches integer (c :: chars)) : Word.IsToken ⟨.integer, text⟩ := by
  have hblank : ∀ c ∈ numberStarts, isBlank c = false := by
    have hcheck : (numberStarts.all fun c => !isBlank c) = true := by decide
    exact fun c hc => by simpa using List.all_eq_true.mp hcheck c hc
  have hbeginning : beginning (c :: chars) = .token .integer (c :: chars).length :=
    beginning_of_longestOf (longestOf_number hstart hmatches) (by decide) (by decide)
  exact Word.isToken_of_beginning htext (hblank c hstart) hbeginning

/-- One or more digits are a token, with a minus before them or without. -/
theorem isToken_of_digits (negative : Bool) {text : String} {digits : List Char}
    (htext : text.toList = if negative then '-' :: digits else digits) (hne : digits ≠ [])
    (hdigits : ∀ c ∈ digits, c.isDigit = true) : Word.IsToken ⟨.integer, text⟩ := by
  obtain ⟨c, rest, rfl⟩ := List.exists_cons_of_ne_nil hne
  obtain ⟨hc, hrest⟩ := List.forall_mem_cons.mp hdigits
  have hmany : Matches (many1 digit) (c :: rest) := .seq (.oneOf hc) (matches_digits hrest)
  cases negative with
  | true => exact isToken_of_number htext (by decide) (.seq (.left (.oneOf (by decide))) hmany)
  | false => exact isToken_of_number htext (mem_numberStarts hc) (.seq (.right .empty) hmany)

theorem isToken_toString_int (value : Int) : Word.IsToken ⟨.integer, toString value⟩ := by
  rcases Int.lt_or_le value 0 with hsign | hsign
  · exact isToken_of_digits true (Text.toList_toString_of_neg hsign)
      Nat.toDigits_ne_nil fun _ hmem => Text.isDigit_of_mem_toDigits hmem
  · exact isToken_of_digits false (Text.toList_toString_of_nonneg hsign)
      Nat.toDigits_ne_nil fun _ hmem => Text.isDigit_of_mem_toDigits hmem

theorem isToken_toString_nat (value : Nat) : Word.IsToken ⟨.integer, toString value⟩ :=
  isToken_toString_int value

end ODataOptions
