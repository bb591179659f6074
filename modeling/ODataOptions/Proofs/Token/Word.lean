import ODataOptions.Parser.Cursor
import ODataOptions.Token.Lexer

/-!
# Words

A word is what is left of a token without its place: its kind and its text.  Parsers decide by words
alone, so what they accept is stated over words.  A vocabulary is a set of words; the tokens ahead of
a cursor may be known to be drawn from one.
-/

namespace ODataOptions

structure Word where
  kind : TokenKind
  text : String
deriving DecidableEq, Repr

/-- A set of words. -/
abbrev Vocabulary := Word → Prop

def Token.word (token : Token) : Word := ⟨token.kind, token.text⟩

namespace Word

/-- The text, read by itself, is one token of the kind. -/
def IsToken (word : Word) : Prop :=
  ∃ span, lexemes word.text = [.token ⟨word.kind, word.text, span⟩]

def isA (word : Word) (kind : TokenKind) : Bool :=
  Token.isA ⟨word.kind, word.text, default⟩ kind

def isWord (word : Word) (text : String) : Bool := word.kind = .identifier && word.text = text

end Word

namespace Token

@[simp]
theorem word_kind (token : Token) : token.word.kind = token.kind := rfl

@[simp]
theorem word_text (token : Token) : token.word.text = token.text := rfl

theorem isA_word (token : Token) (kind : TokenKind) : token.word.isA kind = token.isA kind := rfl

theorem isWord_word (token : Token) (text : String) :
    token.word.isWord text = token.isWord text := rfl

/-- Only the end of the input is taken for the end of the input. -/
theorem kind_ne_endOfInput_of_isA {token : Token} {kind : TokenKind} (hkind : kind ≠ .endOfInput)
    (hisA : token.isA kind = true) : token.kind ≠ .endOfInput := by
  intro hend
  rw [isA] at hisA
  split at hisA
  · simp [hend] at hisA
  · simp only [decide_eq_true_eq] at hisA
    exact hkind (hisA ▸ hend)

/-- A kind that is not contextual is the kind of the tokens that are taken for it. -/
theorem isA_iff_kind_eq {token : Token} {kind : TokenKind} (hplain : kind.contextualWords? = none) :
    token.isA kind = true ↔ token.kind = kind := by
  simp [isA, hplain]

end Token

/-- A kind without words of its own is that of its own tokens only. -/
theorem Word.isA_eq_false {word : Word} {kind : TokenKind} (hplain : kind.contextualWords? = none)
    (hkind : word.kind ≠ kind) : word.isA kind = false := by
  simp [isA, Token.isA, hplain, hkind]

namespace Cursor

/-- Every token ahead is of the vocabulary. -/
def Over (words : Vocabulary) (cursor : Cursor) : Prop :=
  ∀ token ∈ cursor.ahead, token.kind ≠ .endOfInput → words token.word

theorem over_univ (cursor : Cursor) : cursor.Over fun _ => True :=
  fun _ _ _ => trivial

theorem Over.advance {words : Vocabulary} {cursor : Cursor} (hover : cursor.Over words) :
    cursor.advance.Over words := by
  rw [Cursor.advance]
  split
  · next token rest hahead =>
    split
    · exact hover
    · intro other hmem
      exact hover other (hahead ▸ List.mem_cons_of_mem token hmem)
  · exact hover

theorem Over.current {words : Vocabulary} {cursor : Cursor} (hover : cursor.Over words)
    (hkind : cursor.current.kind ≠ .endOfInput) : words cursor.current.word := by
  unfold Cursor.current at hkind ⊢
  split at hkind
  · next token rest hahead => exact hover token (hahead ▸ List.mem_cons_self) hkind
  · exact absurd rfl hkind

end Cursor

end ODataOptions
