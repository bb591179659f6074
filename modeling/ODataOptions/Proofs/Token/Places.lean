import ODataOptions.Proofs.Token.Written

/-!
# Places of tokens

Every token stands at its place in the text, and so does every stretch of text that is no token.
These places lie between characters, and they are in order: each token ends before the next one
begins.
-/

namespace ODataOptions

namespace Span

/-- The place of the source at which the text stands. -/
def Marks (span : Span) (source text : String) : Prop :=
  ∃ before after : String, source = before ++ text ++ after ∧
    span = ⟨before.utf8ByteSize, before.utf8ByteSize + text.utf8ByteSize⟩

/-- A place in order within the source, whose ends stand between characters. -/
structure LiesIn (span : Span) (source : String) : Prop where
  ordered : span.start ≤ span.stop
  inside : span.stop ≤ source.utf8ByteSize
  start_isValid : (String.Pos.Raw.mk span.start).IsValid source
  stop_isValid : (String.Pos.Raw.mk span.stop).IsValid source

/-- A place within the source between two offsets. -/
structure Between (span : Span) (source : String) (first last : Nat) : Prop where
  liesIn : span.LiesIn source
  first_le : first ≤ span.start
  le_last : span.stop ≤ last

variable {span left right : Span} {source text : String}

/-- A place of a text lies between its characters. -/
theorem Marks.liesIn (hmarks : span.Marks source text) : span.LiesIn source := by
  obtain ⟨before, after, hsource, rfl⟩ := hmarks
  refine ⟨Nat.le_add_right _ _, ?_, ?_, ?_⟩
  · rw [hsource, String.utf8ByteSize_append, String.utf8ByteSize_append]
    exact Nat.le_add_right _ _
  · rw [String.Pos.Raw.isValid_iff_exists_append]
    exact ⟨before, text ++ after, by rw [hsource, String.append_assoc], rfl⟩
  · rw [String.Pos.Raw.isValid_iff_exists_append]
    refine ⟨before ++ text, after, hsource, ?_⟩
    rw [String.Pos.Raw.ext_iff, String.byteIdx_rawEndPos, String.utf8ByteSize_append]

/-- The first characters of the text behind a prefix of the source. -/
theorem marks_take {before after : List Char} (hsource : source.toList = before ++ after)
    (length : Nat) :
    Marks ⟨(String.ofList before).utf8ByteSize,
      (String.ofList before).utf8ByteSize + (String.ofList (after.take length)).utf8ByteSize⟩
      source (String.ofList (after.take length)) := by
  refine ⟨String.ofList before, String.ofList (after.drop length), ?_, rfl⟩
  rw [String.append_assoc, ← String.ofList_append, List.take_append_drop, ← String.ofList_append,
    ← hsource, String.ofList_toList]

theorem LiesIn.cover (hleft : left.LiesIn source) (hright : right.LiesIn source)
    (hle : left.start ≤ right.stop) : (cover left right).LiesIn source :=
  ⟨hle, hright.inside, hleft.start_isValid, hright.stop_isValid⟩

theorem Between.cover {first middle last : Nat} (hleft : left.Between source first middle)
    (hright : right.Between source middle last) : (cover left right).Between source first last := by
  refine ⟨hleft.liesIn.cover hright.liesIn ?_, hleft.first_le, hright.le_last⟩
  calc left.start
      ≤ left.stop := hleft.liesIn.ordered
    _ ≤ middle := hleft.le_last
    _ ≤ right.start := hright.first_le
    _ ≤ right.stop := hright.liesIn.ordered

theorem Between.mono {first last first' last' : Nat} (hbetween : span.Between source first last)
    (hfirst : first' ≤ first) (hlast : last ≤ last') : span.Between source first' last' :=
  ⟨hbetween.liesIn, Nat.le_trans hfirst hbetween.first_le, Nat.le_trans hbetween.le_last hlast⟩

/-- The labels of a report show a place within the source as it is. -/
theorem LiesIn.clamp_eq (hlies : span.LiesIn source) : span.clamp source.utf8ByteSize = span :=
  clamp_eq_self hlies.ordered hlies.inside

end Span

/-! ## Lexemes -/

namespace Lexeme

def text : Lexeme → String
  | token found => found.text
  | invalid text _ => text

def span : Lexeme → Span
  | token found => found.span
  | invalid _ span => span

end Lexeme

namespace Beginning

def length : Beginning → Nat
  | token _ length | invalid length => length

def lexeme (found : Beginning) (offset : Nat) (text : List Char) : Lexeme :=
  let word := String.ofList (text.take found.length)
  let span : Span := ⟨offset, offset + word.utf8ByteSize⟩
  match found with
  | token kind _ => .token ⟨kind, word, span⟩
  | invalid _ => .invalid word span

variable (found : Beginning) (offset : Nat) (text : List Char)

@[simp]
theorem lexeme_text : (found.lexeme offset text).text = String.ofList (text.take found.length) := by
  cases found <;> rfl

@[simp]
theorem lexeme_span : (found.lexeme offset text).span =
    ⟨offset, offset + (String.ofList (text.take found.length)).utf8ByteSize⟩ := by
  cases found <;> rfl

end Beginning

/-- The first lexeme of a text is what the text begins with. -/
theorem lexemesFrom_beginning {c : Char} (hblank : isBlank c = false) (steps offset : Nat)
    (text : List Char) :
    let first := (beginning (c :: text)).lexeme offset (c :: text)
    lexemesFrom (steps + 1) offset (c :: text) =
      first :: lexemesFrom steps first.span.stop
        ((c :: text).drop (beginning (c :: text)).length) := by
  rw [lexemesFrom, if_neg (by simp [hblank])]
  cases beginning (c :: text) <;> rfl

/-- A lexeme is what the text begins with at its place. -/
theorem exists_beginning_of_mem {steps offset : Nat} {text : List Char} {lexeme : Lexeme}
    (hmem : lexeme ∈ lexemesFrom steps offset text) :
    ∃ before c rest, text = before ++ c :: rest ∧ isBlank c = false ∧
      lexeme = (beginning (c :: rest)).lexeme
        (offset + (String.ofList before).utf8ByteSize) (c :: rest) := by
  induction steps generalizing offset text with
  | zero => cases hmem
  | succ steps ih =>
    cases text with
    | nil => cases hmem
    | cons c text =>
      cases hblank : isBlank c with
      | true =>
        rw [lexemesFrom_blank hblank] at hmem
        obtain ⟨before, first, rest, htext, hfirst, hlexeme⟩ := ih hmem
        refine ⟨c :: before, first, rest, by rw [htext, List.cons_append], hfirst, ?_⟩
        rw [hlexeme, String.ofList_cons, String.utf8ByteSize_append, String.utf8ByteSize_singleton,
          Nat.add_assoc]
      | false =>
        rw [lexemesFrom_beginning hblank] at hmem
        rcases List.mem_cons.mp hmem with rfl | hmem
        · exact ⟨[], c, text, rfl, hblank, rfl⟩
        · obtain ⟨before, first, rest, htext, hfirst, hlexeme⟩ := ih hmem
          refine ⟨(c :: text).take (beginning (c :: text)).length ++ before, first, rest, ?_, hfirst,
            ?_⟩
          · rw [List.append_assoc, ← htext, List.take_append_drop]
          · rw [hlexeme, Beginning.lexeme_span, String.ofList_append, String.utf8ByteSize_append,
              Nat.add_assoc]

variable {source : String}

/-- The text of a lexeme stands at its place. -/
theorem marks_of_mem_lexemes {lexeme : Lexeme} (hmem : lexeme ∈ lexemes source) :
    lexeme.span.Marks source lexeme.text := by
  obtain ⟨before, c, rest, hsource, -, rfl⟩ := exists_beginning_of_mem hmem
  rw [Beginning.lexeme_span, Beginning.lexeme_text, Nat.zero_add]
  exact Span.marks_take hsource _

theorem marks_of_mem_invalidParts {text : String} {span : Span}
    (hmem : (text, span) ∈ invalidParts source) : span.Marks source text := by
  obtain ⟨lexeme, hlexeme, hpart⟩ := List.mem_filterMap.mp hmem
  cases lexeme with
  | token => cases hpart
  | invalid =>
    cases hpart
    exact marks_of_mem_lexemes hlexeme

theorem exists_beginning_of_token {token : Token} (hmem : .token token ∈ lexemes source) :
    ∃ c rest length, beginning (c :: rest) = .token token.kind length ∧
      token.text = String.ofList ((c :: rest).take length) := by
  obtain ⟨before, c, rest, -, -, hlexeme⟩ := exists_beginning_of_mem hmem
  cases hbeginning : beginning (c :: rest) with
  | invalid length =>
    rw [hbeginning] at hlexeme
    cases hlexeme
  | token kind length =>
    rw [hbeginning] at hlexeme
    cases hlexeme
    exact ⟨c, rest, length, hbeginning, rfl⟩

/-- A token of a text is not the end of the input. -/
theorem kind_ne_endOfInput_of_mem_lexemes {token : Token} (hmem : .token token ∈ lexemes source) :
    token.kind ≠ .endOfInput := by
  obtain ⟨c, rest, length, hbeginning, -⟩ := exists_beginning_of_token hmem
  exact kind_ne_endOfInput_of_beginning hbeginning

/-- A token has a text. -/
theorem text_ne_empty_of_mem_lexemes {token : Token} (hmem : .token token ∈ lexemes source) :
    token.text ≠ "" := by
  obtain ⟨c, rest, length, hbeginning, htext⟩ := exists_beginning_of_token hmem
  obtain ⟨shorter, rfl⟩ :=
    Nat.exists_eq_succ_of_ne_zero (Nat.ne_of_gt (pos_of_beginning hbeginning))
  intro hempty
  rw [htext] at hempty
  cases String.ofList_eq_empty_iff.mp hempty

/-! ## Tokens -/

theorem endOfInput_marks : (Token.endOfInput source.utf8ByteSize).span.Marks source "" :=
  ⟨source, "", by rw [String.append_empty, String.append_empty], rfl⟩

/-- The tokens of a text are its lexemes and the end of the input. -/
theorem mem_tokens_iff {token : Token} :
    token ∈ tokens source ↔
      .token token ∈ lexemes source ∨ token = .endOfInput source.utf8ByteSize := by
  rw [tokens, List.mem_append, List.mem_singleton]
  refine or_congr_left ⟨fun hmem => ?_, fun hmem => List.mem_filterMap.mpr ⟨_, hmem, rfl⟩⟩
  obtain ⟨lexeme, hlexeme, htoken⟩ := List.mem_filterMap.mp hmem
  cases lexeme with
  | invalid => cases htoken
  | token =>
    cases htoken
    exact hlexeme

theorem eq_endOfInput_of_mem_tokens {token : Token} (hmem : token ∈ tokens source)
    (hkind : token.kind = .endOfInput) : token = .endOfInput source.utf8ByteSize := by
  rcases mem_tokens_iff.mp hmem with hmem | hend
  · exact absurd hkind (kind_ne_endOfInput_of_mem_lexemes hmem)
  · exact hend

/-- The text of a token stands at its place, and that of the end of the input behind all others. -/
theorem marks_of_mem_tokens {token : Token} (hmem : token ∈ tokens source) :
    token.span.Marks source token.text := by
  rcases mem_tokens_iff.mp hmem with hmem | rfl
  · exact marks_of_mem_lexemes hmem
  · exact endOfInput_marks

/-- Only the end of the input has no text. -/
theorem text_eq_empty_iff_of_mem_tokens {token : Token} (hmem : token ∈ tokens source) :
    token.text = "" ↔ token.span.start = source.utf8ByteSize := by
  rcases mem_tokens_iff.mp hmem with hmem | rfl
  · have htext := text_ne_empty_of_mem_lexemes hmem
    obtain ⟨before, after, hsource, hspan⟩ := marks_of_mem_lexemes hmem
    apply iff_of_false htext
    intro hstart
    refine htext ?_
    rw [Lexeme.span, Lexeme.text] at *
    rw [hspan, hsource, String.utf8ByteSize_append, String.utf8ByteSize_append] at hstart
    apply String.utf8ByteSize_eq_zero_iff.mp
    dsimp only at hstart
    omega
  · exact iff_of_true rfl rfl

/-! ## Order -/

/-- The lexemes of a text stand within it. -/
theorem bounds_of_mem_lexemesFrom {steps offset : Nat} {text : List Char} {lexeme : Lexeme}
    (hmem : lexeme ∈ lexemesFrom steps offset text) :
    offset ≤ lexeme.span.start ∧
      lexeme.span.stop ≤ offset + (String.ofList text).utf8ByteSize := by
  obtain ⟨before, c, rest, rfl, -, rfl⟩ := exists_beginning_of_mem hmem
  have hcut : (String.ofList (c :: rest)).utf8ByteSize =
      (String.ofList ((c :: rest).take (beginning (c :: rest)).length)).utf8ByteSize +
        (String.ofList ((c :: rest).drop (beginning (c :: rest)).length)).utf8ByteSize := by
    rw [← String.utf8ByteSize_append, ← String.ofList_append, List.take_append_drop]
  rw [Beginning.lexeme_span, String.ofList_append, String.utf8ByteSize_append, hcut]
  dsimp only
  omega

/-- Lexemes do not overlap, by induction on the steps of the scanner. -/
theorem lexemesFrom_pairwise (steps offset : Nat) (text : List Char) :
    (lexemesFrom steps offset text).Pairwise fun first second =>
      first.span.stop ≤ second.span.start := by
  induction steps generalizing offset text with
  | zero => exact .nil
  | succ steps ih =>
    cases text with
    | nil => exact .nil
    | cons c text =>
      cases hblank : isBlank c with
      | true =>
        rw [lexemesFrom_blank hblank]
        exact ih _ _
      | false =>
        rw [lexemesFrom_beginning hblank]
        exact .cons (fun lexeme hmem => (bounds_of_mem_lexemesFrom hmem).1) (ih _ _)

/-- Each token ends before all later ones begin. -/
theorem tokens_pairwise (source : String) :
    (tokens source).Pairwise fun first second => first.span.stop ≤ second.span.start := by
  refine List.pairwise_append.mpr ⟨?_, List.pairwise_singleton _ _, ?_⟩
  · refine (lexemesFrom_pairwise _ 0 source.toList).filterMap _ ?_
    intro lexeme lexeme' hle token htoken token' htoken'
    cases lexeme <;> cases htoken
    cases lexeme' <;> cases htoken'
    exact hle
  · intro token hmem last hlast
    obtain rfl := List.mem_singleton.mp hlast
    have htoken := mem_tokens_iff.mp (List.mem_append_left _ hmem)
    exact (marks_of_mem_tokens (mem_tokens_iff.mpr htoken)).liesIn.inside

end ODataOptions
