import Mathlib.Data.List.Pairwise
import ODataOptions.Proofs.Token.Places
import ODataOptions.Text.Utf8

/-!
# Every byte of a text

The tokens of a text and the stretches of it that are no tokens account for all of its bytes.  They do
not overlap, and the bytes outside of them are blanks.
-/

namespace ODataOptions

open Pattern TokenPattern

/-! ## Bytes -/

namespace Text.Utf8

/-- The bytes of space, tab, carriage return and line feed. -/
def blanks : List UInt8 := [0x20, 0x09, 0x0D, 0x0A]

theorem encode_append (text rest : List Char) : encode (text ++ rest) = encode text ++ encode rest :=
  List.flatMap_append

theorem encode_cons (c : Char) (text : List Char) :
    encode (c :: text) = String.utf8EncodeChar c ++ encode text :=
  List.flatMap_cons

theorem length_encode (text : List Char) :
    (encode text).length = (String.ofList text).utf8ByteSize := by
  induction text with
  | nil => rfl
  | cons c text ih =>
    rw [encode_cons, List.length_append, String.length_utf8EncodeChar, ih, String.ofList_cons,
      String.utf8ByteSize_append, String.utf8ByteSize_singleton]

/-- The byte behind some characters is the first one of the next character. -/
theorem encode_getElem? (before : List Char) (c : Char) (rest : List Char) :
    (encode (before ++ c :: rest))[(String.ofList before).utf8ByteSize]? =
      (String.utf8EncodeChar c).head? := by
  have hpos : 0 < (String.utf8EncodeChar c).length := by
    rw [String.length_utf8EncodeChar]
    exact c.utf8Size_pos
  rw [encode_append, ← length_encode, List.getElem?_append_right (Nat.le_refl _), Nat.sub_self,
    encode_cons, List.getElem?_append_left hpos, List.head?_eq_getElem?]

/-- The first byte of a character is the character itself, or it is none of the first 128. -/
theorem head?_utf8EncodeChar {c : Char} {byte : UInt8}
    (hhead : (String.utf8EncodeChar c).head? = some byte) :
    byte.toNat = c.toNat ∨ 128 ≤ byte.toNat ∧ 128 ≤ c.toNat := by
  have hvalid : c.toNat < 0xD800 ∨ (0xDFFF < c.toNat ∧ c.toNat < 0x110000) := c.valid
  unfold String.utf8EncodeChar at hhead
  simp only [Char.toNat_val] at hhead
  repeat' split at hhead
  all_goals
    cases hhead
    rw [UInt8.toNat_ofNat']
    omega

/-- Blanks are of one byte, which is the first byte of no other character. -/
theorem mem_blanks_iff {c : Char} {byte : UInt8}
    (hhead : (String.utf8EncodeChar c).head? = some byte) : byte ∈ blanks ↔ isBlank c = true := by
  have hvalue : ∀ d : Char, c = d ↔ c.toNat = d.toNat := fun d => Char.toNat_inj.symm
  have hbyte := head?_utf8EncodeChar hhead
  simp only [blanks, isBlank, Bool.or_eq_true, decide_eq_true_eq, hvalue, List.mem_cons,
    List.not_mem_nil, or_false, ← UInt8.toNat_inj]
  simp only [UInt8.reduceToNat, Char.reduceToNat]
  omega

end Text.Utf8

/-- The byte of the text at the offset is a space, a tab, a carriage return or a line feed. -/
def BlankAt (source : String) (offset : Nat) : Prop :=
  ∃ byte ∈ Text.Utf8.blanks, (Text.Utf8.encode source.toList)[offset]? = some byte

/-- Behind some characters there is a blank byte exactly if the next character is a blank. -/
theorem blankAt_iff {source : String} {before rest : List Char} {c : Char}
    (hsource : source.toList = before ++ c :: rest) :
    BlankAt source (String.ofList before).utf8ByteSize ↔ isBlank c = true := by
  rw [BlankAt, hsource, Text.Utf8.encode_getElem?]
  constructor
  · rintro ⟨byte, hmem, hhead⟩
    exact (Text.Utf8.mem_blanks_iff hhead).mp hmem
  · intro hblank
    have hpos : 0 < (String.utf8EncodeChar c).length := by
      rw [String.length_utf8EncodeChar]
      exact c.utf8Size_pos
    obtain ⟨byte, hhead⟩ : ∃ byte, (String.utf8EncodeChar c).head? = some byte :=
      ⟨_, List.head?_eq_some_head (List.ne_nil_of_length_pos hpos)⟩
    exact ⟨byte, (Text.Utf8.mem_blanks_iff hhead).mpr hblank, hhead⟩

/-! ## Lexemes -/

namespace Span

/-- The byte at the offset is one of those at the place. -/
def Covers (span : Span) (offset : Nat) : Prop := span.start ≤ offset ∧ offset < span.stop

/-- One of the places ends before the other one begins. -/
def Apart (first second : Span) : Prop := first.stop ≤ second.start ∨ second.stop ≤ first.start

end Span

/-- A pattern that does not match the empty text reaches over a character at least. -/
theorem Pattern.longest_pos {pattern : Pattern} {text : List Char} {reach : Nat}
    (hnullable : pattern.nullable = false) (hlongest : pattern.longest text = some reach) :
    0 < reach := by
  apply Nat.pos_of_ne_zero
  intro hzero
  have hmatches := (longest_eq_some_iff.mp hlongest).2.1
  rw [hzero, List.take_zero, ← nullable_iff, hnullable] at hmatches
  cases hmatches

/-- A lexeme takes a character at least. -/
theorem length_beginning_pos (c : Char) (text : List Char) :
    0 < (beginning (c :: text)).length := by
  cases hbeginning : beginning (c :: text) with
  | token kind length => exact pos_of_beginning hbeginning
  | invalid length =>
    change 0 < length
    unfold beginning at hbeginning
    split at hbeginning
    · split at hbeginning
      · cases hbeginning
        exact Nat.succ_pos _
      · cases hbeginning
    · split at hbeginning
      · next reach hfraction =>
        cases hbeginning
        exact longest_pos rfl hfraction
      · split at hbeginning <;> cases hbeginning
    · cases hbeginning
    · split at hbeginning
      · cases hbeginning
        exact Nat.succ_pos _
      · cases hbeginning
        cases hopen : openPhrase.longest (c :: text) with
        | none => exact Nat.one_pos
        | some reach => exact longest_pos rfl hopen
      · cases hbeginning
        exact Nat.one_pos

/-- Each byte of a text is one of a lexeme, or a blank between them. -/
theorem covered_or_blank {steps offset place : Nat} {text : List Char} (hsteps : text.length ≤ steps)
    (hfirst : offset ≤ place) (hlast : place < offset + (String.ofList text).utf8ByteSize) :
    (∃ lexeme ∈ lexemesFrom steps offset text, lexeme.span.Covers place) ∨
      ∃ before c rest, text = before ++ c :: rest ∧ isBlank c = true ∧
        place = offset + (String.ofList before).utf8ByteSize := by
  induction steps generalizing offset text with
  | zero =>
    rw [List.length_eq_zero_iff.mp (Nat.le_zero.mp hsteps)] at hlast
    exact absurd hlast (Nat.not_lt.mpr hfirst)
  | succ steps ih =>
    cases text with
    | nil => exact absurd hlast (Nat.not_lt.mpr hfirst)
    | cons c text =>
      cases hblank : isBlank c with
      | true =>
        have hsize : c.utf8Size = 1 := by
          simp only [isBlank, Bool.or_eq_true, decide_eq_true_eq] at hblank
          obtain ((rfl | rfl) | rfl) | rfl := hblank <;> rfl
        rw [lexemesFrom_blank hblank, hsize]
        rw [String.ofList_cons, String.utf8ByteSize_append, String.utf8ByteSize_singleton,
          hsize] at hlast
        rcases Nat.eq_or_lt_of_le hfirst with rfl | hlt
        · exact .inr ⟨[], c, text, rfl, hblank, rfl⟩
        · refine (ih (Nat.le_of_succ_le_succ hsteps) hlt (by omega)).imp_right ?_
          rintro ⟨before, d, rest, rfl, hd, hplace⟩
          refine ⟨c :: before, d, rest, rfl, hd, ?_⟩
          rw [String.ofList_cons, String.utf8ByteSize_append, String.utf8ByteSize_singleton, hsize,
            hplace, Nat.succ_eq_add_one, Nat.add_assoc]
      | false =>
        have hpos := length_beginning_pos c text
        generalize hlength : (beginning (c :: text)).length = length at hpos
        have hcut : (String.ofList (c :: text)).utf8ByteSize =
            (String.ofList ((c :: text).take length)).utf8ByteSize +
              (String.ofList ((c :: text).drop length)).utf8ByteSize := by
          rw [← String.utf8ByteSize_append, ← String.ofList_append, List.take_append_drop]
        rw [lexemesFrom_beginning hblank, Beginning.lexeme_span, hlength]
        dsimp only
        by_cases hcovered : place < offset + (String.ofList ((c :: text).take length)).utf8ByteSize
        · refine .inl ⟨_, List.mem_cons_self, ?_⟩
          rw [Beginning.lexeme_span, hlength]
          exact ⟨hfirst, hcovered⟩
        · have hdrop : ((c :: text).drop length).length ≤ steps := by
            rw [List.length_drop]
            omega
          rcases ih hdrop (Nat.not_lt.mp hcovered) (by omega) with
            ⟨lexeme, hmem, hcovers⟩ | ⟨before, d, rest, hrest, hd, hplace⟩
          · exact .inl ⟨lexeme, List.mem_cons_of_mem _ hmem, hcovers⟩
          · refine .inr ⟨(c :: text).take length ++ before, d, rest, ?_, hd, ?_⟩
            · rw [List.append_assoc, ← hrest, List.take_append_drop]
            · rw [String.ofList_append, String.utf8ByteSize_append, hplace, Nat.add_assoc]

variable {source : String}

/-- Each byte is that of a lexeme or a blank. -/
theorem covered_or_blankAt {offset : Nat} (hoffset : offset < source.utf8ByteSize) :
    (∃ lexeme ∈ lexemes source, lexeme.span.Covers offset) ∨ BlankAt source offset := by
  have hlast : offset < 0 + (String.ofList source.toList).utf8ByteSize := by
    rwa [String.ofList_toList, Nat.zero_add]
  refine (covered_or_blank (Nat.le_refl _) (Nat.zero_le offset) hlast).imp_right ?_
  rintro ⟨before, c, rest, hsource, hblank, rfl⟩
  rw [Nat.zero_add]
  exact (blankAt_iff hsource).mpr hblank

/-- A lexeme has a text. -/
theorem span_start_lt_stop {lexeme : Lexeme} (hmem : lexeme ∈ lexemes source) :
    lexeme.span.start < lexeme.span.stop := by
  obtain ⟨before, c, rest, -, -, rfl⟩ := exists_beginning_of_mem hmem
  obtain ⟨shorter, hlength⟩ :=
    Nat.exists_eq_succ_of_ne_zero (Nat.ne_of_gt (length_beginning_pos c rest))
  have hpos := c.utf8Size_pos
  rw [Beginning.lexeme_span, hlength, List.take_succ_cons, String.ofList_cons,
    String.utf8ByteSize_append, String.utf8ByteSize_singleton]
  dsimp only
  omega

/-- A lexeme does not begin with a blank. -/
theorem not_blankAt_start {lexeme : Lexeme} (hmem : lexeme ∈ lexemes source) :
    ¬ BlankAt source lexeme.span.start := by
  obtain ⟨before, c, rest, hsource, hblank, rfl⟩ := exists_beginning_of_mem hmem
  rw [Beginning.lexeme_span, Nat.zero_add, blankAt_iff hsource, hblank]
  exact Bool.false_ne_true

/-- Different lexemes do not overlap. -/
theorem apart_of_mem_lexemes {first second : Lexeme} (hfirst : first ∈ lexemes source)
    (hsecond : second ∈ lexemes source) (hne : first ≠ second) : first.span.Apart second.span := by
  have hsymm : Std.Symm fun first second : Lexeme => first.span.Apart second.span :=
    ⟨fun _ _ => Or.symm⟩
  have hordered : (lexemes source).Pairwise fun first second => first.span.Apart second.span :=
    (lexemesFrom_pairwise _ 0 source.toList).imp .inl
  exact hordered.forall hfirst hsecond hne

theorem mem_filterMap_token?_iff {token : Token} :
    token ∈ (lexemes source).filterMap Lexeme.token? ↔ .token token ∈ lexemes source := by
  rw [List.mem_filterMap]
  refine ⟨?_, fun hmem => ⟨_, hmem, rfl⟩⟩
  rintro ⟨lexeme, hmem, htoken⟩
  cases lexeme with
  | token =>
    cases htoken
    exact hmem
  | invalid => cases htoken

theorem mem_invalidParts_iff {text : String} {span : Span} :
    (text, span) ∈ invalidParts source ↔ .invalid text span ∈ lexemes source := by
  rw [invalidParts, List.mem_filterMap]
  refine ⟨?_, fun hmem => ⟨_, hmem, rfl⟩⟩
  rintro ⟨lexeme, hmem, hpart⟩
  cases lexeme with
  | token => cases hpart
  | invalid =>
    cases hpart
    exact hmem

/-- The places of the tokens and of the invalid stretches are those of the lexemes. -/
theorem mem_places_iff {span : Span} :
    span ∈ ((lexemes source).filterMap Lexeme.token?).map Token.span ++
        (invalidParts source).map Prod.snd ↔
      ∃ lexeme ∈ lexemes source, lexeme.span = span := by
  rw [List.mem_append, List.mem_map, List.mem_map]
  constructor
  · rintro (⟨token, hmem, rfl⟩ | ⟨⟨text, _⟩, hmem, rfl⟩)
    · exact ⟨_, mem_filterMap_token?_iff.mp hmem, rfl⟩
    · exact ⟨_, mem_invalidParts_iff.mp hmem, rfl⟩
  · rintro ⟨lexeme, hmem, rfl⟩
    cases lexeme with
    | token token => exact .inl ⟨token, mem_filterMap_token?_iff.mpr hmem, rfl⟩
    | invalid text span => exact .inr ⟨(text, span), mem_invalidParts_iff.mpr hmem, rfl⟩

/-- No token of a text is of a kind that stands for the end of the input, or for some identifiers. -/
theorem kind_of_mem_lexemes {token : Token} (hmem : .token token ∈ lexemes source) :
    token.kind ∉ [TokenKind.endOfInput, .max, .boolean, .null] := by
  have hall : ∀ entry ∈ all, entry.1 ∉ [TokenKind.endOfInput, .max, .boolean, .null] := by decide
  obtain ⟨c, rest, length, hbeginning, -⟩ := exists_beginning_of_token hmem
  obtain ⟨found, hlongest, hfound⟩ := longestOf_of_beginning hbeginning
  obtain ⟨⟨pattern, hpattern, -⟩, -⟩ := longestOf_eq_some hlongest
  rcases hfound with rfl | ⟨-, hkind, -⟩
  · exact hall _ hpattern
  · rw [hkind]
    decide

/-! ## Texts -/

/-- These tokens and these stretches, which are no tokens, account for every byte of a text. -/
structure AccountFor (source : String) (found : List Token) (invalid : List (String × Span)) :
    Prop where
  /-- Each place holds a byte at least and lies between characters. -/
  places : ∀ span ∈ found.map Token.span ++ invalid.map Prod.snd,
    span.start < span.stop ∧ span.LiesIn source
  tokens_marked : ∀ token ∈ found, token.span.Marks source token.text
  invalid_marked : ∀ part ∈ invalid, part.2.Marks source part.1
  tokens_ordered : found.Pairwise fun first second => first.span.stop ≤ second.span.start
  invalid_ordered : invalid.Pairwise fun first second => first.2.stop ≤ second.2.start
  apart : ∀ token ∈ found, ∀ part ∈ invalid, token.span.Apart part.2
  /-- What they leave out is blank. -/
  blank : ∀ offset < source.utf8ByteSize,
    (∀ span ∈ found.map Token.span ++ invalid.map Prod.snd, ¬ span.Covers offset) →
      BlankAt source offset
  /-- Without the tokens and the blanks, nothing is left exactly if there is nothing invalid. -/
  faultless : invalid = [] ↔ ∀ offset < source.utf8ByteSize,
    (∃ token ∈ found, token.span.Covers offset) ∨ BlankAt source offset

/-- An invalid stretch begins with a byte that neither belongs to a token nor is blank. -/
theorem not_covered_of_mem_invalidParts {text : String} {span : Span}
    (hmem : (text, span) ∈ invalidParts source) :
    span.start < source.utf8ByteSize ∧ ¬ BlankAt source span.start ∧
      ∀ token ∈ (lexemes source).filterMap Lexeme.token?, ¬ token.span.Covers span.start := by
  have hlexeme := mem_invalidParts_iff.mp hmem
  have hlt : span.start < span.stop := span_start_lt_stop hlexeme
  refine ⟨Nat.lt_of_lt_of_le hlt (marks_of_mem_lexemes hlexeme).liesIn.inside,
    not_blankAt_start hlexeme, ?_⟩
  rintro token htoken ⟨hfirst, hlast⟩
  have hapart : token.span.Apart span :=
    apart_of_mem_lexemes (mem_filterMap_token?_iff.mp htoken) hlexeme nofun
  rcases hapart with hle | hle
  · exact absurd hlast (Nat.not_lt.mpr hle)
  · exact absurd hlt (Nat.not_lt.mpr (Nat.le_trans hle hfirst))

/-- The tokens of a text end with the end of the input.  Those before it and the invalid stretches
account for every byte. -/
theorem tokens_account (source : String) :
    ∃ found, tokens source = found ++ [.endOfInput source.utf8ByteSize] ∧
      (∀ token ∈ found, token.kind ∉ [TokenKind.endOfInput, .max, .boolean, .null]) ∧
      AccountFor source found (invalidParts source) := by
  refine ⟨_, rfl, fun token hmem => kind_of_mem_lexemes (mem_filterMap_token?_iff.mp hmem), ?_⟩
  have hordered := tokens_pairwise source
  refine
    { places := ?places
      tokens_marked := fun token hmem => marks_of_mem_lexemes (mem_filterMap_token?_iff.mp hmem)
      invalid_marked := fun part hmem => marks_of_mem_invalidParts hmem
      tokens_ordered := (List.pairwise_append.mp hordered).1
      invalid_ordered := ?invalid_ordered
      apart := ?apart
      blank := ?blank
      faultless := ?faultless }
  case places =>
    intro span hmem
    obtain ⟨lexeme, hlexeme, rfl⟩ := mem_places_iff.mp hmem
    exact ⟨span_start_lt_stop hlexeme, (marks_of_mem_lexemes hlexeme).liesIn⟩
  case invalid_ordered =>
    refine (lexemesFrom_pairwise _ 0 source.toList).filterMap _ ?_
    intro lexeme lexeme' hle part hpart part' hpart'
    cases lexeme <;> cases hpart
    cases lexeme' <;> cases hpart'
    exact hle
  case apart =>
    intro token htoken part hpart
    exact apart_of_mem_lexemes (mem_filterMap_token?_iff.mp htoken) (mem_invalidParts_iff.mp hpart)
      nofun
  case blank =>
    intro offset hoffset hfree
    rcases covered_or_blankAt hoffset with ⟨lexeme, hmem, hcovers⟩ | hblank
    · exact absurd hcovers (hfree _ (mem_places_iff.mpr ⟨lexeme, hmem, rfl⟩))
    · exact hblank
  case faultless =>
    constructor
    · intro hfaultless offset hoffset
      refine (covered_or_blankAt hoffset).imp_left ?_
      rintro ⟨lexeme, hmem, hcovers⟩
      cases lexeme with
      | token token => exact ⟨token, mem_filterMap_token?_iff.mpr hmem, hcovers⟩
      | invalid text span =>
        rw [← mem_invalidParts_iff, hfaultless] at hmem
        cases hmem
    · intro hcovered
      apply List.eq_nil_iff_forall_not_mem.mpr
      intro part hmem
      -- the first byte of an invalid stretch is neither in a token nor blank
      obtain ⟨hoffset, hblank, hfree⟩ := not_covered_of_mem_invalidParts hmem
      rcases hcovered _ hoffset with ⟨token, htoken, hcovers⟩ | hblankAt
      · exact hfree token htoken hcovers
      · exact hblank hblankAt

end ODataOptions
