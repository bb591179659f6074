import ODataOptions.Proofs.Token.Word

/-!
# Words that are spelled differently

The keyword of a system query option and `$ref` may be written in any mixture of cases.  Parsers take
such words for the same: what they ask of a token has the same answer for both spellings.
-/

namespace ODataOptions

namespace TokenKind

/-- Whether the words of the kind begin with `$`. -/
def isKeyword : TokenKind → Bool
  | .option _ | .ref => true
  | _ => false

theorem ne_of_isKeyword {kind plain : TokenKind} (hkeyword : kind.isKeyword = true)
    (hplain : plain.isKeyword = false) : kind ≠ plain := by
  rintro rfl
  exact Bool.noConfusion (hplain.symm.trans hkeyword)

end TokenKind

/-- Only a keyword is taken for a keyword. -/
theorem Token.isKeyword_of_isA {token : Token} {kind : TokenKind} (hisA : token.isA kind = true)
    (hplain : kind.isKeyword = false) : token.kind.isKeyword = false := by
  rw [Token.isA] at hisA
  split at hisA
  · obtain ⟨hkind, -⟩ := Bool.and_eq_true_iff.mp hisA
    rw [of_decide_eq_true hkind]
    rfl
  · rw [of_decide_eq_true hisA, hplain]

namespace Word

/-- The same word, but for the case of the letters of a keyword. -/
structure Respells (word word' : Word) : Prop where
  kind : word.kind = word'.kind
  text : word.text = word'.text ∨
    word.kind.isKeyword = true ∧ Text.sameWord word.text word'.text = true

namespace Respells

variable {word word' : Word}

theorem refl (word : Word) : word.Respells word := ⟨rfl, .inl rfl⟩

/-- Only a keyword has several spellings. -/
theorem eq_or_isKeyword (hrespells : word.Respells word') :
    word = word' ∨ word.kind.isKeyword = true := by
  obtain ⟨kind, text⟩ := word
  obtain ⟨kind', text'⟩ := word'
  obtain ⟨rfl, rfl | ⟨hkeyword, -⟩⟩ := hrespells
  · exact .inl rfl
  · exact .inr hkeyword

/-- Only keywords may be spelled in another case. -/
theorem eq_of_plain (hrespells : word.Respells word') (hplain : word.kind.isKeyword = false) :
    word = word' :=
  hrespells.eq_or_isKeyword.resolve_right (by simp [hplain])

/-- No parser can tell two spellings apart. -/
theorem isA_eq (hrespells : word.Respells word') (kind : TokenKind) :
    word.isA kind = word'.isA kind := by
  rcases hrespells.eq_or_isKeyword with rfl | hkeyword
  · rfl
  · have hidentifier : word.kind ≠ .identifier := TokenKind.ne_of_isKeyword hkeyword rfl
    have hidentifier' : word'.kind ≠ .identifier := hrespells.kind ▸ hidentifier
    unfold isA Token.isA
    split
    · simp [hidentifier, hidentifier']
    · simp [hrespells.kind]

theorem isWord_eq (hrespells : word.Respells word') (text : String) :
    word.isWord text = word'.isWord text := by
  rcases hrespells.eq_or_isKeyword with rfl | hkeyword
  · rfl
  · have hidentifier : word.kind ≠ .identifier := TokenKind.ne_of_isKeyword hkeyword rfl
    have hidentifier' : word'.kind ≠ .identifier := hrespells.kind ▸ hidentifier
    simp [isWord, hidentifier, hidentifier']

end Respells

end Word

end ODataOptions
