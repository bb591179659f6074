import ODataOptions.Proofs.Parser.Moves
import ODataOptions.Proofs.Token.Coverage

/-!
# Stretches of tokens

The stretch from one cursor to another one is the span from where the first token between them starts to
where the last one stops.  Stretches one behind the other are covered by a stretch from the first cursor
to the last one.

Between the tokens of a text, a stretch is an excerpt of the text: it holds the tokens between the cursors
and no others.
-/

namespace ODataOptions

open ODataOptions.Parser

/-! ## Places of tokens in a text -/

/-- A place within a text holds a part of it. -/
theorem Span.LiesIn.exists_marks {span : Span} {source : String} (hlies : span.LiesIn source) :
    ∃ text, span.Marks source text := by
  obtain ⟨front, rest, hfront, hstart⟩ :=
    String.Pos.Raw.isValid_iff_exists_append.mp hlies.start_isValid
  obtain ⟨whole, after, hwhole, hstop⟩ :=
    String.Pos.Raw.isValid_iff_exists_append.mp hlies.stop_isValid
  have hstart : span.start = front.utf8ByteSize := String.Pos.Raw.ext_iff.mp hstart
  have hstop : span.stop = whole.utf8ByteSize := String.Pos.Raw.ext_iff.mp hstop
  have hsame : front.toList ++ rest.toList = whole.toList ++ after.toList := by
    rw [← String.toList_append, ← hfront, hwhole, String.toList_append]
  rcases List.append_eq_append_iff.mp hsame with ⟨text, hlonger, -⟩ | ⟨more, hshorter, -⟩
  · have hsplit : whole = front ++ String.ofList text := by
      rw [← String.ofList_toList (s := whole), hlonger, String.ofList_append, String.ofList_toList]
    refine ⟨String.ofList text, front, after, by rw [hwhole, hsplit], ?_⟩
    rw [← String.utf8ByteSize_append, ← hsplit, ← hstart, ← hstop]
  · have hsplit : front = whole ++ String.ofList more := by
      rw [← String.ofList_toList (s := front), hshorter, String.ofList_append, String.ofList_toList]
    -- the stop is not before the start, so nothing is left between them
    have hempty : span.stop = span.start := by
      have horder := hlies.ordered
      rw [hstart, hstop, hsplit, String.utf8ByteSize_append] at horder ⊢
      omega
    refine ⟨"", front, rest, by rw [hfront, String.append_empty], ?_⟩
    rw [← hstart, String.utf8ByteSize_empty, Nat.add_zero]
    exact congrArg (Span.mk span.start) hempty

section

variable {source : String} {index later : Nat} {token other : Token}
  (htoken : (tokens source)[index]? = some token) (hother : (tokens source)[later]? = some other)

include htoken hother

/-- Of two tokens of a text, the earlier one stops before the other one starts. -/
theorem stop_le_start (hlt : index < later) : token.span.stop ≤ other.span.start := by
  obtain ⟨hindex, rfl⟩ := List.getElem?_eq_some_iff.mp htoken
  obtain ⟨hlater, rfl⟩ := List.getElem?_eq_some_iff.mp hother
  exact List.pairwise_iff_getElem.mp (tokens_pairwise source) index later hindex hlater hlt

/-- Both the starts and the stops of tokens are in order. -/
theorem span_le_span (hle : index ≤ later) :
    token.span.start ≤ other.span.start ∧ token.span.stop ≤ other.span.stop := by
  rcases Nat.eq_or_lt_of_le hle with rfl | hlt
  · rw [htoken] at hother
    cases hother
    exact ⟨Nat.le_refl _, Nat.le_refl _⟩
  · have hbetween := stop_le_start htoken hother hlt
    have hfirst := (marks_of_mem_tokens (List.mem_of_getElem? htoken)).liesIn.ordered
    have hlast := (marks_of_mem_tokens (List.mem_of_getElem? hother)).liesIn.ordered
    exact ⟨Nat.le_trans hfirst hbetween, Nat.le_trans hbetween hlast⟩

end

namespace Cursor

/-- The second cursor stands between the same tokens, not before the first one. -/
structure Reaches (before behind : Cursor) : Prop where
  tokens_eq : behind.tokens = before.tokens
  position_le : before.position ≤ behind.position

/-- There are tokens between the cursors, and the span goes from the start of the first of them to the
stop of the last one. -/
structure Stretch (before behind : Cursor) (span : Span) : Prop where
  tokens_eq : behind.tokens = before.tokens
  position_lt : before.position < behind.position
  exists_tokens : ∃ first last, before.tokens[before.position]? = some first ∧
    before.tokens[behind.position - 1]? = some last ∧ span = ⟨first.span.start, last.span.stop⟩

/-- The place holds a text of the source.  Among the tokens of the source, those between the cursors are
the ones that start there. -/
structure Excerpt (source : String) (before behind : Cursor) (span : Span) : Prop where
  tokens_eq : before.tokens = ODataOptions.tokens source
  stretch : before.Stretch behind span
  marks : ∃ text, span.Marks source text
  covers_iff : ∀ index token, before.tokens[index]? = some token → token.kind ≠ .endOfInput →
    (span.Covers token.span.start ↔ before.position ≤ index ∧ index < behind.position)

variable {cursor before middle next behind : Cursor} {span span' : Span}

/-! ## Reaching -/

theorem Reaches.refl (cursor : Cursor) : cursor.Reaches cursor := ⟨rfl, Nat.le_refl _⟩

theorem Reaches.trans (hfirst : before.Reaches middle) (hsecond : middle.Reaches behind) :
    before.Reaches behind :=
  ⟨hsecond.tokens_eq.trans hfirst.tokens_eq, Nat.le_trans hfirst.position_le hsecond.position_le⟩

theorem reaches_advance (cursor : Cursor) : cursor.Reaches cursor.advance := by
  refine ⟨tokens_advance cursor, ?_⟩
  by_cases hend : cursor.current.kind = .endOfInput
  · exact Nat.le_of_eq (congrArg position (advance_of_end hend)).symm
  · rw [position_advance hend]
    exact Nat.le_succ _

theorem Passes.reaches {words : List Word} (hpasses : before.Passes words behind) :
    before.Reaches behind := by
  induction hpasses with
  | nil => exact .refl _
  | cons _ _ _ ih => exact (reaches_advance _).trans ih

theorem length_tokens (cursor : Cursor) :
    cursor.tokens.length = cursor.position + cursor.ahead.length := by
  rw [tokens, List.length_append, List.length_reverse, position]

/-- Whoever consumes a token reaches a later place. -/
theorem Reaches.position_lt (hreaches : before.Reaches behind)
    (hless : behind.ahead.length < before.ahead.length) : before.position < behind.position := by
  have hlength := congrArg List.length hreaches.tokens_eq
  rw [length_tokens, length_tokens] at hlength
  omega

/-! ## Stretches -/

theorem getElem?_position (hkind : cursor.current.kind ≠ .endOfInput) :
    cursor.tokens[cursor.position]? = some cursor.current := by
  rw [tokens, ahead_of_current hkind, position, ← List.length_reverse, List.getElem?_append_right
    (Nat.le_refl _), Nat.sub_self, List.getElem?_cons_zero]

theorem previous?_advance (hkind : cursor.current.kind ≠ .endOfInput) :
    cursor.advance.previous? = some cursor.current := by
  obtain ⟨consumed, ahead, depth⟩ := cursor
  cases ahead with
  | nil => exact absurd rfl hkind
  | cons token ahead =>
    have hother : token.kind ≠ .endOfInput := hkind
    simp [advance, previous?, current, hother]

/-- The token that was consumed last stands right before the cursor. -/
theorem getElem?_previous (hpositive : 0 < cursor.position) :
    ∃ last, cursor.previous? = some last ∧ cursor.tokens[cursor.position - 1]? = some last := by
  obtain ⟨consumed, ahead, depth⟩ := cursor
  cases consumed with
  | nil => cases hpositive
  | cons last consumed =>
    refine ⟨last, rfl, ?_⟩
    simp [tokens, position]

/-- A span from the current token to the one that is consumed last. -/
theorem Reaches.stretch (hreaches : before.Reaches behind) (hlt : before.position < behind.position)
    (hkind : before.current.kind ≠ .endOfInput) :
    before.Stretch behind (.cover before.current.span behind.previousSpan) := by
  obtain ⟨last, hprevious, hlast⟩ := getElem?_previous (Nat.zero_lt_of_lt hlt)
  rw [hreaches.tokens_eq] at hlast
  refine ⟨hreaches.tokens_eq, hlt, before.current, last, getElem?_position hkind, hlast, ?_⟩
  rw [previousSpan, hprevious]
  rfl

/-- A token is a stretch by itself. -/
theorem stretch_current (hkind : cursor.current.kind ≠ .endOfInput) :
    cursor.Stretch cursor.advance cursor.current.span := by
  have hlast := getElem?_position hkind
  refine ⟨tokens_advance cursor, ?_, cursor.current, cursor.current, hlast, ?_, rfl⟩
  · rw [position_advance hkind]
    exact Nat.lt_succ_self _
  · rw [position_advance hkind]
    exact hlast

theorem stretch_of_isA {kind : TokenKind} (hkind : kind ≠ .endOfInput)
    (hfound : cursor.current.isA kind = true) : cursor.Stretch cursor.advance cursor.current.span :=
  stretch_current (Token.kind_ne_endOfInput_of_isA hkind hfound)

theorem Stretch.reaches (hstretch : before.Stretch behind span) : before.Reaches behind :=
  ⟨hstretch.tokens_eq, Nat.le_of_lt hstretch.position_lt⟩

/-- Stretches that follow one another make one. -/
theorem Stretch.cover (hfirst : before.Stretch middle span) (hbetween : middle.Reaches next)
    (hlast : next.Stretch behind span') : before.Stretch behind (.cover span span') := by
  obtain ⟨first, _, hstart, -, rfl⟩ := hfirst.exists_tokens
  obtain ⟨_, last, -, hstop, rfl⟩ := hlast.exists_tokens
  have hreaches := hfirst.reaches.trans hbetween
  rw [hreaches.tokens_eq] at hstop
  exact ⟨hlast.tokens_eq.trans hreaches.tokens_eq, Nat.lt_of_le_of_lt hreaches.position_le hlast.position_lt,
    first, last, hstart, hstop, rfl⟩

/-- Levels do not matter for stretches. -/
theorem Stretch.withDepth {depth : Nat} (hstretch : Stretch { before with depth } behind span)
    (depth' : Nat) : before.Stretch { behind with depth := depth' } span :=
  ⟨hstretch.tokens_eq, hstretch.position_lt, hstretch.exists_tokens⟩

/-- A stretch of the tokens of a text is an excerpt of the text. -/
theorem Stretch.excerpt {source : String} (hstretch : before.Stretch behind span)
    (htokens : before.tokens = ODataOptions.tokens source) : Excerpt source before behind span := by
  obtain ⟨first, last, hfirst, hlast, rfl⟩ := hstretch.exists_tokens
  have hle : before.position ≤ behind.position - 1 := Nat.le_sub_one_of_lt hstretch.position_lt
  rw [htokens] at hfirst hlast
  have hstart := (marks_of_mem_tokens (List.mem_of_getElem? hfirst)).liesIn
  have hstop := (marks_of_mem_tokens (List.mem_of_getElem? hlast)).liesIn
  have horder : first.span.start ≤ last.span.stop :=
    Nat.le_trans hstart.ordered (span_le_span hfirst hlast hle).2
  refine ⟨htokens, hstretch, (hstart.cover hstop horder).exists_marks, ?_⟩
  intro index token htoken hkind
  rw [htokens] at htoken
  have hlong : token.span.start < token.span.stop := by
    rcases mem_tokens_iff.mp (List.mem_of_getElem? htoken) with hmem | rfl
    · exact span_start_lt_stop hmem
    · exact absurd rfl hkind
  constructor
  · rintro ⟨hfrom, hto⟩
    refine ⟨Nat.not_lt.mp fun hearly => ?_, Nat.not_le.mp fun hlate => ?_⟩
    · exact Nat.not_lt.mpr (Nat.le_trans (stop_le_start htoken hfirst hearly) hfrom) hlong
    · have hlate : behind.position - 1 < index :=
        Nat.lt_of_lt_of_le (Nat.sub_one_lt_of_lt hstretch.position_lt) hlate
      exact Nat.not_lt.mpr (stop_le_start hlast htoken hlate) hto
  · rintro ⟨hfrom, hto⟩
    refine ⟨(span_le_span hfirst htoken hfrom).1, ?_⟩
    exact Nat.lt_of_lt_of_le hlong (span_le_span htoken hlast (Nat.le_sub_one_of_lt hto)).2

end Cursor

section

variable {α : Type} {parser : Parser α} {cursor rest : Cursor} {value : α}

theorem Parser.Moves.reaches (hparser : Moves parser) (hrun : parser cursor = .ok value rest) :
    cursor.Reaches rest := by
  obtain ⟨words, hpasses⟩ := hparser.passes hrun
  exact hpasses.reaches

/-- A parser that consumes tokens leaves a stretch of them behind. -/
theorem Parser.Moves.stretch (hparser : Moves parser) (hconsumes : Consumes parser)
    (hrun : parser cursor = .ok value rest) :
    cursor.Stretch rest (.cover cursor.current.span rest.previousSpan) := by
  have hless := hconsumes hrun
  have hkind : cursor.current.kind ≠ .endOfInput := by
    intro hend
    obtain ⟨words, hpasses⟩ := hparser.passes hrun
    rw [hpasses.eq_of_end hend] at hless
    exact Nat.lt_irrefl _ hless
  have hreaches := hparser.reaches hrun
  exact hreaches.stretch (hreaches.position_lt hless) hkind

end

end ODataOptions
