import ODataOptions.Expression.Parser
import ODataOptions.Proofs.Token.Written
import ODataOptions.Search.Parser

/-!
# Losslessness of quoting

A text is put in quotes in two ways: as a string literal its quotes are doubled, and as a phrase of
a search its quotes and backslashes get a backslash before them.  Either way the quoted text is one
token wherever it is put at the start of a longer text, and what it stands for is the text that was
quoted.  The doubling leaves one case out: a quote that follows directly would be read as one of a
pair.
-/

namespace ODataOptions

/-! ## Escaping in two passes -/

namespace Text.Escaped

/-- Writes a backslash before each `marked` character. -/
def mark (marked : Char) (text : List Char) : List Char :=
  text.flatMap fun c => if c = marked then ['\\', c] else [c]

theorem mark_cons_of_ne {marked c : Char} (hne : c ≠ marked) (text : List Char) :
    mark marked (c :: text) = c :: mark marked text := by
  simp [mark, hne]

theorem mark_cons_self (marked : Char) (text : List Char) :
    mark marked (marked :: text) = '\\' :: marked :: mark marked text := by
  simp [mark]

/-- Escaping is to mark the backslashes first and the quotes behind that.  The other way round the
backslashes that mark the quotes would be marked too. -/
theorem encode_eq_mark {quote : Char} (hquote : quote ≠ '\\') (text : List Char) :
    encode quote text = mark quote (mark '\\' text) := by
  have hbackslash : '\\' ≠ quote := Ne.symm hquote
  induction text with
  | nil => rfl
  | cons c text ih =>
    have hcons : encode quote (c :: text) =
        (if c = quote || c = '\\' then ['\\', c] else [c]) ++ encode quote text := rfl
    rw [hcons, ih]
    by_cases hescape : c = '\\'
    · subst hescape
      rw [mark_cons_self, mark_cons_of_ne hbackslash, mark_cons_of_ne hbackslash]
      simp
    · rw [mark_cons_of_ne hescape]
      by_cases hmarked : c = quote
      · subst hmarked
        rw [mark_cons_self]
        simp
      · rw [mark_cons_of_ne hmarked]
        simp [hescape, hmarked]

example : mark '\\' (mark '"' ['"']) ≠ encode '"' ['"'] := by decide

end Text.Escaped

/-! ## First tokens -/

/-- The token of all of `text` where a longer text begins with it. -/
def Token.leading (kind : TokenKind) (text : String) : Token := ⟨kind, text, ⟨0, text.utf8ByteSize⟩⟩

/-- A text begins with a token if no blank stands before it and the lexer takes just its
characters. -/
theorem head?_tokens {word rest : String} {kind : TokenKind} {c : Char} {text : List Char}
    (hword : word.toList = c :: text) (hblank : isBlank c = false)
    (hbeginning : beginning (word.toList ++ rest.toList) = .token kind word.toList.length) :
    (tokens (word ++ rest)).head? = some (.leading kind word) := by
  have hsource : (word ++ rest).toList = c :: (text ++ rest.toList) := by
    rw [String.toList_append, hword, List.cons_append]
  rw [← String.toList_append, hsource] at hbeginning
  have htake : (c :: (text ++ rest.toList)).take word.toList.length = word.toList := by
    rw [← hsource, String.toList_append, List.take_left]
  have hlexemes : ∃ behind, lexemes (word ++ rest) = .token (.leading kind word) :: behind := by
    rw [lexemes, hsource, List.length_cons, lexemesFrom, if_neg (by simp [hblank]), hbeginning]
    simp only [htake, String.ofList_toList, Nat.zero_add]
    exact ⟨_, rfl⟩
  obtain ⟨behind, hlexemes⟩ := hlexemes
  rw [tokens, hlexemes]
  rfl

theorem toList_print_string (text : String) :
    (Literal.string text).print.toList =
      '\'' :: (Text.Doubled.encode '\'' text.toList ++ ['\'']) := by
  simp [Literal.print]

theorem toList_print_phrase (text : String) :
    (SearchExpression.phrase text).print.toList =
      '"' :: (Text.Escaped.encode '"' text.toList ++ ['"']) := by
  simp [SearchExpression.print]

/-- A string literal is the first token of any text that begins with it and goes on without a
quote. -/
theorem head?_tokens_string (text : String) {rest : String}
    (hrest : rest.toList.head? ≠ some '\'') :
    (tokens ((Literal.string text).print ++ rest)).head? =
      some (.leading .string (Literal.string text).print) := by
  refine head?_tokens (toList_print_string text) rfl ?_
  rw [toList_print_string, List.cons_append, List.append_assoc, List.singleton_append,
    beginning_string _ _ hrest]
  simp

/-- A phrase is the first token of any text that begins with it. -/
theorem head?_tokens_phrase (text rest : String) :
    (tokens ((SearchExpression.phrase text).print ++ rest)).head? =
      some (.leading .quotedPhrase (SearchExpression.phrase text).print) := by
  refine head?_tokens (toList_print_phrase text) rfl ?_
  rw [toList_print_phrase, List.cons_append, List.append_assoc, List.singleton_append,
    beginning_phrase]
  simp

/-! ## What quoted texts stand for -/

/-- The token of a string literal stands for that literal. -/
theorem ofToken_leading_string (text : String) :
    Literal.ofToken (.leading .string (Literal.string text).print) = .ok (.string text) := by
  have hinner : Text.unquoted '\'' (Literal.string text).print.toList =
      Text.Doubled.encode '\'' text.toList := by
    rw [toList_print_string, Text.unquoted_quoted]
  simp only [Literal.ofToken, Token.leading, hinner, Text.Doubled.decode_encode,
    String.ofList_toList]

/-- The token of a phrase has the text of the phrase. -/
theorem phraseText_leading (text : String) :
    SearchExpression.Grammar.phraseText
      (.leading .quotedPhrase (SearchExpression.phrase text).print) = text := by
  simp only [SearchExpression.Grammar.phraseText, Token.leading, toList_print_phrase,
    Text.unquoted_quoted, Text.Escaped.decode_encode, String.ofList_toList]

/-- Quoting is lossless.  The printed form of a string, with anything behind it but a quote, begins
with a token of just this form, which stands for the string again; and so does the printed form of a
phrase, with anything behind it. -/
theorem quoting_lossless (text rest : String) :
    (rest.toList.head? ≠ some '\'' →
      (tokens ((Literal.string text).print ++ rest)).head? =
          some (.leading .string (Literal.string text).print) ∧
        Literal.ofToken (.leading .string (Literal.string text).print) = .ok (.string text)) ∧
    (tokens ((SearchExpression.phrase text).print ++ rest)).head? =
        some (.leading .quotedPhrase (SearchExpression.phrase text).print) ∧
      SearchExpression.Grammar.phraseText
        (.leading .quotedPhrase (SearchExpression.phrase text).print) = text :=
  ⟨fun hrest => ⟨head?_tokens_string text hrest, ofToken_leading_string text⟩,
    head?_tokens_phrase text rest, phraseText_leading text⟩

/-- Quotes, backslashes, a line break and a character of several bytes, before a comma and another
quote. -/
theorem quoting_lossless_marks :
    (", 'b'".toList.head? ≠ some '\'') ∧
      (tokens ((Literal.string "''\\\"\né'").print ++ ", 'b'")).head? =
        some (.leading .string "'''''\\\"\né'''") ∧
      Literal.ofToken (.leading .string "'''''\\\"\né'''") = .ok (.string "''\\\"\né'") :=
  have hrest : ", 'b'".toList.head? ≠ some '\'' := by decide
  ⟨hrest, (quoting_lossless "''\\\"\né'" ", 'b'").1 hrest⟩

end ODataOptions
