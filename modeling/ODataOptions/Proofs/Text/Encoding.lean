import ODataOptions.Proofs.Text.Percent

/-!
# Percent-encoded text

A text can be encoded in many ways: each of its characters is written as it is or byte by byte, and the
hexadecimal digits may be of either case.  Whichever way is taken, decoding leads back to the text.
-/

namespace ODataOptions.Text.Percent

/-- How bytes are written, each as a percent sign and two hexadecimal digits. -/
inductive Escapes : List UInt8 → List Char → Prop
  | nil : Escapes [] []
  | cons {byte : UInt8} {bytes : List UInt8} {high low : Char} {written : List Char}
      (hbyte : byte? high low = some byte) (hrest : Escapes bytes written) :
      Escapes (byte :: bytes) ('%' :: high :: low :: written)

/-- How a text is encoded, where the characters that are `bare` may be written as they are.  A percent
sign is always encoded. -/
inductive Encodes (bare : Char → Prop) : List Char → List Char → Prop
  | nil : Encodes bare [] []
  | bare {c : Char} {text written : List Char} (hbare : bare c) (hpercent : c ≠ '%')
      (hrest : Encodes bare text written) : Encodes bare (c :: text) (c :: written)
  | escaped {c : Char} {text escape written : List Char}
      (hescape : Escapes (String.utf8EncodeChar c) escape) (hrest : Encodes bare text written) :
      Encodes bare (c :: text) (escape ++ written)

/-! ## Decoding -/

theorem bytes_cons_of_ne {c : Char} (hpercent : c ≠ '%') (text : List Char) :
    bytes (c :: text) = String.utf8EncodeChar c ++ bytes text := by
  rw [bytes]
  rintro _ _ _ rfl
  exact absurd rfl hpercent

theorem Escapes.bytes_append {encoded : List UInt8} {escape : List Char}
    (hescape : Escapes encoded escape) (written : List Char) :
    bytes (escape ++ written) = encoded ++ bytes written := by
  induction hescape with
  | nil => rfl
  | cons hbyte _ ih => simp [bytes, hbyte, ih]

variable {bare : Char → Prop} {text written : List Char}

/-- An encoded text stands for the bytes of the text. -/
theorem Encodes.bytes_eq (hencodes : Encodes bare text written) : bytes written = Utf8.encode text := by
  induction hencodes with
  | nil => rfl
  | bare _ hpercent _ ih =>
    rw [bytes_cons_of_ne hpercent, ih]
    rfl
  | escaped hescape _ ih =>
    rw [hescape.bytes_append, ih]
    rfl

/-- Decoding undoes every encoding. -/
theorem Encodes.decode_eq (hencodes : Encodes bare text written) :
    decode written = String.ofList text := by
  rw [decode, hencodes.bytes_eq, Utf8.decode_encode]

/-! ## An encoder -/

def hexDigit (value : Nat) : Char := "0123456789ABCDEF".toList.getD value '0'

def escapeByte (byte : UInt8) : List Char :=
  ['%', hexDigit (byte.toNat / 16), hexDigit (byte.toNat % 16)]

/-- The text, with every character encoded that may not be written as it is. -/
def encode (bare : Char → Prop) [DecidablePred bare] (text : List Char) : List Char :=
  text.flatMap fun c =>
    if bare c ∧ c ≠ '%' then [c] else (String.utf8EncodeChar c).flatMap escapeByte

/-- The two digits that are written for a byte stand for it. -/
theorem byte?_hexDigit (byte : UInt8) :
    byte? (hexDigit (byte.toNat / 16)) (hexDigit (byte.toNat % 16)) = some byte := by
  have hall : ∀ value : Fin 256, byte? (hexDigit (value.val / 16)) (hexDigit (value.val % 16)) =
      some (UInt8.ofNat value.val) := by decide +kernel
  have hbyte := hall ⟨byte.toNat, byte.toNat_lt⟩
  rwa [UInt8.ofNat_toNat] at hbyte

theorem escapes_flatMap (encoded : List UInt8) : Escapes encoded (encoded.flatMap escapeByte) := by
  induction encoded with
  | nil => exact .nil
  | cons byte encoded ih => exact .cons (byte?_hexDigit byte) ih

/-- So every text has an encoding. -/
theorem encodes_encode (bare : Char → Prop) [DecidablePred bare] (text : List Char) :
    Encodes bare text (encode bare text) := by
  induction text with
  | nil => exact .nil
  | cons c text ih =>
    rw [encode, List.flatMap_cons]
    split
    · next hc => exact .bare hc.1 hc.2 ih
    · exact .escaped (escapes_flatMap _) ih

/-! ## Characters that do not occur -/

theorem isSome_hexValue?_of_byte? {high low : Char} {byte : UInt8} (hbyte : byte? high low = some byte) :
    (hexValue? high).isSome = true ∧ (hexValue? low).isSome = true := by
  rw [byte?] at hbyte
  cases hhigh : hexValue? high with
  | none => simp [hhigh] at hbyte
  | some =>
    cases hlow : hexValue? low with
    | none => simp [hhigh, hlow] at hbyte
    | some => exact ⟨rfl, rfl⟩

/-- An escape has no other characters than percent signs and hexadecimal digits. -/
theorem Escapes.not_mem {c : Char} (hpercent : c ≠ '%') (hdigit : hexValue? c = none)
    {encoded : List UInt8} {escape : List Char} (hescape : Escapes encoded escape) : c ∉ escape := by
  induction hescape with
  | nil => exact List.not_mem_nil
  | cons hbyte _ ih =>
    obtain ⟨hhigh, hlow⟩ := isSome_hexValue?_of_byte? hbyte
    rw [List.mem_cons, List.mem_cons, List.mem_cons, not_or, not_or, not_or]
    refine ⟨hpercent, ?_, ?_, ih⟩
    · rintro rfl
      rw [hdigit] at hhigh
      cases hhigh
    · rintro rfl
      rw [hdigit] at hlow
      cases hlow

/-- A character that may not be written as it is does not occur in an encoded text. -/
theorem Encodes.not_mem {c : Char} (hbare : ¬ bare c) (hpercent : c ≠ '%') (hdigit : hexValue? c = none)
    (hencodes : Encodes bare text written) : c ∉ written := by
  induction hencodes with
  | nil => exact List.not_mem_nil
  | bare hother _ _ ih =>
    rw [List.mem_cons, not_or]
    refine ⟨?_, ih⟩
    rintro rfl
    exact hbare hother
  | escaped hescape _ ih =>
    rw [List.mem_append, not_or]
    exact ⟨hescape.not_mem hpercent hdigit, ih⟩

end ODataOptions.Text.Percent
