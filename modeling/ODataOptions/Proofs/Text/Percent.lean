import ODataOptions.Text.Percent

/-!
# Text that is not percent-encoded

A text without percent-encoded bytes stands for itself.
-/

namespace ODataOptions.Text

namespace Utf8

/-! ## Bytes of one character -/

section Bytes

variable {bytes : List UInt8} {byte : Nat}

theorem decodeBehind_none (hbyte : byte < 256) {text : List Char} {next : Option Unfinished}
    (hlead : lead byte = (text, next)) :
    decodeBehind none (UInt8.ofNat byte :: bytes) = text ++ decodeBehind next bytes := by
  simp [decodeBehind, Nat.mod_eq_of_lt hbyte, hlead]

variable {unfinished : Unfinished} (hbyte : byte < 256) (hlow : unfinished.low ≤ byte)
  (hhigh : byte ≤ unfinished.high)

include hbyte hlow hhigh

theorem decodeBehind_last (hfurther : unfinished.further = 0) :
    decodeBehind (some unfinished) (UInt8.ofNat byte :: bytes) =
      Char.ofNat (64 * unfinished.value + (byte - 0x80)) :: decodeBehind none bytes := by
  simp [decodeBehind, follow, Nat.mod_eq_of_lt hbyte, hlow, hhigh, hfurther]

theorem decodeBehind_more {further : Nat} (hfurther : unfinished.further = further + 1) :
    decodeBehind (some unfinished) (UInt8.ofNat byte :: bytes) =
      decodeBehind (some { value := 64 * unfinished.value + (byte - 0x80), further }) bytes := by
  simp [decodeBehind, follow, Nat.mod_eq_of_lt hbyte, hlow, hhigh, hfurther]

end Bytes

/-- The first of two bytes. -/
theorem lead_two {value : Nat} (hleast : 0x80 ≤ value) (hmost : value ≤ 0x7FF) :
    lead (value / 64 % 32 + 192) = ([], some { value := value / 64, further := 0 }) := by
  have hmod : value / 64 % 32 = value / 64 := Nat.mod_eq_of_lt (by omega)
  rw [hmod, lead, if_neg (by omega), if_neg (by omega), if_pos (by omega), Nat.add_sub_cancel]

/-- The first of three bytes, behind which the second one may stand. -/
theorem lead_three {value : Nat} (hleast : 0x800 ≤ value) (hmost : value ≤ 0xFFFF)
    (hplain : value < 0xD800 ∨ 0xDFFF < value) :
    ∃ unfinished, lead (value / 4096 % 16 + 224) = ([], some unfinished) ∧
      unfinished.value = value / 4096 ∧ unfinished.further = 1 ∧
      unfinished.low ≤ value / 64 % 64 + 128 ∧ value / 64 % 64 + 128 ≤ unfinished.high := by
  have hmod : value / 4096 % 16 = value / 4096 := Nat.mod_eq_of_lt (by omega)
  rw [hmod, lead, if_neg (by omega), if_neg (by omega), if_neg (by omega)]
  by_cases hfirst : value / 4096 + 224 = 0xE0
  · rw [if_pos hfirst]
    exact ⟨_, rfl, by dsimp only; omega, rfl, by dsimp only; omega, by dsimp only; omega⟩
  · rw [if_neg hfirst]
    by_cases hsurrogates : value / 4096 + 224 = 0xED
    · rw [if_pos hsurrogates]
      exact ⟨_, rfl, by dsimp only; omega, rfl, by dsimp only; omega, by dsimp only; omega⟩
    · rw [if_neg hsurrogates, if_pos (by omega), Nat.add_sub_cancel]
      exact ⟨_, rfl, rfl, rfl, by dsimp only; omega, by dsimp only; omega⟩

/-- The first of four bytes, behind which the second one may stand. -/
theorem lead_four {value : Nat} (hleast : 0x10000 ≤ value) (hmost : value < 0x110000) :
    ∃ unfinished, lead (value / 262144 % 8 + 240) = ([], some unfinished) ∧
      unfinished.value = value / 262144 ∧ unfinished.further = 2 ∧
      unfinished.low ≤ value / 4096 % 64 + 128 ∧ value / 4096 % 64 + 128 ≤ unfinished.high := by
  have hmod : value / 262144 % 8 = value / 262144 := Nat.mod_eq_of_lt (by omega)
  rw [hmod, lead, if_neg (by omega), if_neg (by omega), if_neg (by omega), if_neg (by omega),
    if_neg (by omega), if_neg (by omega)]
  by_cases hfirst : value / 262144 + 240 = 0xF0
  · rw [if_pos hfirst]
    exact ⟨_, rfl, by dsimp only; omega, rfl, by dsimp only; omega, by dsimp only; omega⟩
  · rw [if_neg hfirst]
    by_cases hinner : value / 262144 + 240 < 0xF4
    · rw [if_pos hinner, Nat.add_sub_cancel]
      exact ⟨_, rfl, rfl, rfl, by dsimp only; omega, by dsimp only; omega⟩
    · rw [if_neg hinner, if_pos (by omega)]
      exact ⟨_, rfl, by dsimp only; omega, rfl, by dsimp only; omega, by dsimp only; omega⟩

section Char

variable {value : Nat} (bytes : List UInt8)

theorem decodeBehind_one (hmost : value ≤ 0x7F) :
    decodeBehind none ([UInt8.ofNat value] ++ bytes) = Char.ofNat value :: decodeBehind none bytes := by
  have hlead : lead value = ([Char.ofNat value], none) := by rw [lead, if_pos (by omega)]
  exact decodeBehind_none (by omega) hlead

theorem decodeBehind_two (hleast : 0x80 ≤ value) (hmost : value ≤ 0x7FF) :
    decodeBehind none
        ([UInt8.ofNat (value / 64 % 32 + 192), UInt8.ofNat (value % 64 + 128)] ++ bytes) =
      Char.ofNat value :: decodeBehind none bytes := by
  rw [List.cons_append, List.singleton_append,
    decodeBehind_none (by omega) (lead_two hleast hmost), List.nil_append,
    decodeBehind_last (by omega) (by dsimp only; omega) (by dsimp only; omega) rfl]
  have hall : 64 * (value / 64) + (value % 64 + 128 - 128) = value := by omega
  rw [hall]

/-- Three bytes make a character, except for the surrogates. -/
theorem decodeBehind_three (hleast : 0x800 ≤ value) (hmost : value ≤ 0xFFFF)
    (hplain : value < 0xD800 ∨ 0xDFFF < value) :
    decodeBehind none ([UInt8.ofNat (value / 4096 % 16 + 224), UInt8.ofNat (value / 64 % 64 + 128),
        UInt8.ofNat (value % 64 + 128)] ++ bytes) =
      Char.ofNat value :: decodeBehind none bytes := by
  obtain ⟨unfinished, hlead, hstart, hfurther, hlow, hhigh⟩ := lead_three hleast hmost hplain
  rw [List.cons_append, List.cons_append, List.singleton_append,
    decodeBehind_none (by omega) hlead, List.nil_append,
    decodeBehind_more (by omega) hlow hhigh hfurther,
    decodeBehind_last (by omega) (by dsimp only; omega) (by dsimp only; omega) rfl, hstart]
  have hall : 64 * (64 * (value / 4096) + (value / 64 % 64 + 128 - 128)) +
      (value % 64 + 128 - 128) = value := by omega
  rw [hall]

theorem decodeBehind_four (hleast : 0x10000 ≤ value) (hmost : value < 0x110000) :
    decodeBehind none ([UInt8.ofNat (value / 262144 % 8 + 240), UInt8.ofNat (value / 4096 % 64 + 128),
        UInt8.ofNat (value / 64 % 64 + 128), UInt8.ofNat (value % 64 + 128)] ++ bytes) =
      Char.ofNat value :: decodeBehind none bytes := by
  obtain ⟨unfinished, hlead, hstart, hfurther, hlow, hhigh⟩ := lead_four hleast hmost
  rw [List.cons_append, List.cons_append, List.cons_append, List.singleton_append,
    decodeBehind_none (by omega) hlead, List.nil_append,
    decodeBehind_more (by omega) hlow hhigh hfurther,
    decodeBehind_more (by omega) (by dsimp only; omega) (by dsimp only; omega) rfl,
    decodeBehind_last (by omega) (by dsimp only; omega) (by dsimp only; omega) rfl, hstart]
  have hall : 64 * (64 * (64 * (value / 262144) + (value / 4096 % 64 + 128 - 128)) +
      (value / 64 % 64 + 128 - 128)) + (value % 64 + 128 - 128) = value := by omega
  rw [hall]

/-- The bytes of a character are read as this character. -/
theorem decodeBehind_encodeChar (c : Char) :
    decodeBehind none (String.utf8EncodeChar c ++ bytes) = c :: decodeBehind none bytes := by
  have hvalue : Char.ofNat c.val.toNat = c := Char.ofNat_toNat c
  have hvalid : c.val.toNat < 0xD800 ∨ (0xDFFF < c.val.toNat ∧ c.val.toNat < 0x110000) := c.valid
  rw [String.utf8EncodeChar]
  generalize c.val.toNat = value at hvalue hvalid
  rw [← hvalue]
  by_cases hone : value ≤ 0x7F
  · rw [if_pos hone, decodeBehind_one bytes hone]
  · by_cases htwo : value ≤ 0x7FF
    · rw [if_neg hone, if_pos htwo, decodeBehind_two bytes (by omega) htwo]
    · by_cases hthree : value ≤ 0xFFFF
      · rw [if_neg hone, if_neg htwo, if_pos hthree,
          decodeBehind_three bytes (by omega) hthree (by omega)]
      · rw [if_neg hone, if_neg htwo, if_neg hthree, decodeBehind_four bytes (by omega) (by omega)]

end Char

/-- What is encoded in UTF-8 is decoded again. -/
theorem decode_encode (text : List Char) : decode (encode text) = text := by
  induction text with
  | nil => rfl
  | cons c text ih =>
    have hencode : encode (c :: text) = String.utf8EncodeChar c ++ encode text :=
      List.flatMap_cons
    rw [hencode, decode, decodeBehind_encodeChar]
    exact congrArg _ ih

end Utf8

namespace Percent

/-- No percent sign in the text stands before two hexadecimal digits. -/
def isPlain : List Char → Bool
  | '%' :: high :: low :: text => (byte? high low).isNone && isPlain (high :: low :: text)
  | _ :: text => isPlain text
  | [] => true

theorem bytes_of_isPlain {text : List Char} (hplain : isPlain text = true) :
    bytes text = Utf8.encode text := by
  fun_induction bytes text with
  | case1 => rfl
  | case2 high low text byte hbyte =>
    simp [isPlain, hbyte] at hplain
  | case3 high low text hbyte ih =>
    rw [isPlain, hbyte, Option.isNone_none, Bool.true_and] at hplain
    rw [ih hplain]
    rfl
  | case4 c text hother ih =>
    rw [isPlain] at hplain
    · rw [ih hplain]
      rfl
    · exact hother

/-- A text without percent-encoded bytes stands for itself. -/
theorem decode_of_isPlain {text : List Char} (hplain : isPlain text = true) :
    decode text = String.ofList text := by
  rw [decode, bytes_of_isPlain hplain, Utf8.decode_encode]

end Percent

end ODataOptions.Text
