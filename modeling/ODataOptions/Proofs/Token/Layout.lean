import Mathlib.Data.List.Forall2
import ODataOptions.Proofs.Token.Coverage
import ODataOptions.Proofs.Token.Delimited
import ODataOptions.Proofs.Token.Munch
import ODataOptions.Proofs.Token.Respelling

/-!
# The layout of a text

The tokens of a text without faults can be written anew with any blanks between them, and with the
letters of keywords in any case.  Blanks neither join two tokens nor cut one in two: the new text has
the same tokens, at other places.
-/

namespace ODataOptions

open Pattern TokenPattern

/-! ## Keywords -/

namespace TokenPattern

/-- The keywords are told by their letters, and hold no blank. -/
theorem exists_keyword_of_isKeyword : ∀ entry ∈ all, entry.1.isKeyword = true →
    (∃ word, entry.2 = keyword word) ∧ entry.2.excludes separators = true := by
  have hoptions : ∀ kind : OptionKind, (keyword kind.keyword).excludes separators = true := by
    intro kind
    cases kind <;> decide
  refine List.forall_mem_append.mpr ⟨List.forall_mem_map.mpr fun kind _ _ => ?_, ?_⟩
  · exact ⟨⟨_, rfl⟩, hoptions kind⟩
  · refine List.forall_mem_cons.mpr ⟨fun _ => ⟨⟨_, rfl⟩, by decide⟩, ?_⟩
    simp [TokenKind.isKeyword]

end TokenPattern

theorem mem_separators_of_isBlank {c : Char} (hblank : isBlank c = true) : c ∈ separators := by
  simp only [isBlank, Bool.or_eq_true, decide_eq_true_eq] at hblank
  rcases hblank with ((rfl | rfl) | rfl) | rfl <;> decide

namespace Word

/-- A text that one of the patterns matches as a whole is a token of that kind, apart from strings and
dates, which are looked at more closely. -/
theorem isToken_of_matches {word : Word} {pattern : Pattern} (hmem : (word.kind, pattern) ∈ all)
    (hmatches : Matches pattern word.text.toList) (hexcludes : pattern.excludes separators = true)
    (hstring : word.kind ≠ .string) (hdate : word.kind ≠ .date) : word.IsToken := by
  have hwhole : Munch word.text.toList word.kind word.text.toList :=
    ⟨List.prefix_rfl, ⟨pattern, hmem, hmatches⟩, fun _ _ _ hbegins _ => hbegins.length_le,
      fun entry hentry hword => kind_unique hentry hmem hword hmatches⟩
  cases hlongest : longestOf word.text.toList all with
  | none => exact absurd hmatches (not_matches_of_longestOf hlongest _ hmem _ List.prefix_rfl)
  | some found =>
    obtain ⟨kind, length⟩ := found
    obtain ⟨rfl, htake⟩ := hwhole.unique (munch_of_longestOf hlongest)
    have hbeginning := beginning_of_longestOf hlongest hstring hdate
    have hlength := congrArg List.length htake
    rw [List.length_take, Nat.min_eq_left (le_length_of_beginning hbeginning)] at hlength
    rw [hlength] at hbeginning
    cases htext : word.text.toList with
    | nil =>
      rw [htext, ← nullable_iff, nullable_of_mem_all _ hmem] at hmatches
      cases hmatches
    | cons c text =>
      rw [htext] at hbeginning hmatches
      have hblank : isBlank c = false := Bool.eq_false_iff.mpr fun hblank =>
        excludes_sound hexcludes hmatches c List.mem_cons_self (mem_separators_of_isBlank hblank)
      exact isToken_of_beginning htext hblank hbeginning

/-- A keyword remains a token in whatever case its letters are written. -/
theorem IsToken.respelled {word word' : Word} (htoken : word.IsToken)
    (hrespells : word.Respells word') : word'.IsToken := by
  obtain ⟨kind, text⟩ := word
  obtain ⟨kind', text'⟩ := word'
  obtain ⟨rfl, rfl | ⟨hkeyword, hsame⟩⟩ := hrespells
  · exact htoken
  · obtain ⟨c, chars, htext, -, hbeginning⟩ := htoken.beginning
    obtain ⟨found, hlongest, hfound⟩ := longestOf_of_beginning hbeginning
    -- what is found is of another kind only where a date is taken for an integer
    have hkind : found = kind := by
      rcases hfound with rfl | ⟨-, rfl, -⟩
      · rfl
      · cases hkeyword
    rw [hkind] at hlongest
    obtain ⟨⟨pattern, hmem, hreach⟩, -⟩ := longestOf_eq_some hlongest
    obtain ⟨-, hmatches, -⟩ := longest_eq_some_iff.mp hreach
    obtain ⟨⟨keyword, rfl⟩, hexcludes⟩ := exists_keyword_of_isKeyword _ hmem hkeyword
    rw [List.take_length, ← htext] at hmatches
    have hfolded : Text.folded text = Text.folded text' := of_decide_eq_true hsame
    have hmatches' : Matches (Pattern.keyword keyword) text'.toList :=
      matches_keyword_of_folded (hfolded.symm.trans (folded_of_matches_keyword hmatches))
    exact isToken_of_matches hmem hmatches' hexcludes (TokenKind.ne_of_isKeyword hkeyword rfl)
      (TokenKind.ne_of_isKeyword hkeyword rfl)

end Word

/-! ## Laying out -/

/-- The words stand in the text one after another, with at least one blank between neighbours.  The
letters of keywords may be in any case. -/
inductive LaidOut : List Char → List Word → Prop
  | nil : LaidOut [] []
  | blank {c : Char} {text : List Char} {words : List Word} (hblank : isBlank c = true)
      (htext : LaidOut text words) : LaidOut (c :: text) words
  | word {word : Word} {written : String} {text : List Char} {words : List Word}
      (hspelled : word.Respells ⟨word.kind, written⟩) (hbehind : ∀ c ∈ text.head?, isBlank c = true)
      (htext : LaidOut text words) : LaidOut (written.toList ++ text) (word :: words)

/-- Words that are tokens by themselves are the tokens of a text in which they are laid out. -/
theorem LaidOut.exists_written {text : List Char} {words : List Word} (hlaid : LaidOut text words)
    (htokens : ∀ word ∈ words, word.IsToken) :
    ∃ words', List.Forall₂ Word.Respells words words' ∧ Written text words' := by
  induction hlaid with
  | nil => exact ⟨[], .nil, .nil⟩
  | blank hblank _ ih =>
    obtain ⟨words', hwords', hwritten⟩ := ih htokens
    exact ⟨words', hwords', .blank hblank hwritten⟩
  | @word word written text words hspelled hbehind _ ih =>
    obtain ⟨htoken, hrest⟩ := List.forall_mem_cons.mp htokens
    obtain ⟨words', hwords', hwritten⟩ := ih hrest
    obtain ⟨c, chars, htext, hblank, hbeginning⟩ := (htoken.respelled hspelled).beginning
    have hseparates : Separates text := fun d hd => mem_separators_of_isBlank (hbehind d hd)
    refine ⟨_ :: words', .cons hspelled hwords', ?_⟩
    rw [show written.toList = c :: chars from htext]
    exact .token htext hblank (beginning_append_separates hseparates hbeginning) hwritten

/-- The second text is the first one laid out anew: the same tokens in the same order, with blanks
between them, and with keywords in any case. -/
def Relaid (source source' : String) : Prop :=
  LaidOut source'.toList ((tokens source).dropLast.map Token.word)

/-- A text without faults is cut into the same tokens when it is laid out anew. -/
theorem Relaid.tokens {source source' : String} (hrelaid : Relaid source source')
    (hfaultless : invalidParts source = []) :
    invalidParts source' = [] ∧
      List.Forall₂ (fun token token' => token.word.Respells token'.word) (tokens source)
        (tokens source') := by
  rw [Relaid, ODataOptions.tokens, List.dropLast_concat] at hrelaid
  have htokens : ∀ word ∈ ((lexemes source).filterMap Lexeme.token?).map Token.word,
      word.IsToken := by
    intro word hmem
    obtain ⟨token, htoken, rfl⟩ := List.mem_map.mp hmem
    rw [mem_filterMap_token?_iff] at htoken
    exact isToken_of_mem_tokens hfaultless (mem_tokens_iff.mpr (.inl htoken))
      (kind_ne_endOfInput_of_mem_lexemes htoken)
  obtain ⟨words', hwords', hwritten⟩ := hrelaid.exists_written htokens
  obtain ⟨hfaultless', found', stop, hfound', hmap⟩ := hwritten.tokens
  refine ⟨hfaultless', ?_⟩
  rw [← hmap, List.forall₂_map_left_iff, List.forall₂_map_right_iff] at hwords'
  rw [ODataOptions.tokens, hfound']
  exact List.rel_append hwords' (.cons (.refl _) .nil)

end ODataOptions
