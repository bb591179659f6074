import ODataOptions.Fault.Diagnostic
import ODataOptions.Proofs.Parser.Moves
import ODataOptions.Proofs.Parser.Whole
import ODataOptions.Proofs.Token.Places

/-!
# Where parsers find faults

`Parser.Locates source cursor parser P` says that the parser, run from the cursor over the tokens of
a text, points into the text with every fault, and that its values and the offsets where it stops
satisfy `P`.  There is one rule for each way to build a parser, so a grammar is followed rule by rule.
`Parser.Located` says so of every cursor, and nothing of the values.
-/

namespace ODataOptions

/-! ## Faults that point into a text -/

/-- Whether a fault of this key reports the token that was found as its last parameter. -/
def FaultKey.reportsToken : FaultKey → Bool
  | .unexpectedToken | .trailingTokens => true
  | _ => false

namespace Fault

/-- The fault points into the text.  A second place comes before the first one, and a token that is
reported as found stands at the place of the fault. -/
structure PlacedIn (fault : Fault) (source : String) : Prop where
  span_liesIn : fault.span.LiesIn source
  related_liesIn : ∀ place note, fault.related = some (place, note) →
    place.LiesIn source ∧ place.stop ≤ fault.span.start
  found_marked : fault.key.reportsToken = true → ∃ text, fault.parameters.getLast? = some text ∧
    fault.span.Marks source text ∧ (text = "" ↔ fault.span.start = source.utf8ByteSize)

variable {source : String} {problem : Problem} {span : Span} {token : Token}

theorem placedIn_of_span (hspan : span.LiesIn source) (hkey : problem.key.reportsToken = false) :
    PlacedIn { problem, span } source where
  span_liesIn := hspan
  related_liesIn := fun _ _ hrelated => nomatch hrelated
  found_marked := fun hreports => absurd (hkey.symm.trans hreports) Bool.false_ne_true

theorem placedIn_of_token (hmem : token ∈ tokens source)
    (hfound : problem.key.reportsToken = true → problem.parameters.getLast? = some token.text) :
    PlacedIn { problem, span := token.span } source where
  span_liesIn := (marks_of_mem_tokens hmem).liesIn
  related_liesIn := fun _ _ hrelated => nomatch hrelated
  found_marked := fun hreports => ⟨token.text, hfound hreports, marks_of_mem_tokens hmem,
    text_eq_empty_iff_of_mem_tokens hmem⟩

/-- A second place may be added if it lies before the first one. -/
theorem PlacedIn.withRelated {place : Span} (hplaced : PlacedIn { problem, span } source)
    (hplace : place.LiesIn source) (hle : place.stop ≤ span.start) (note : String) :
    ((Fault.mk problem span none).withRelated place note).PlacedIn source where
  span_liesIn := hplaced.span_liesIn
  related_liesIn := by
    rintro _ _ ⟨⟩
    exact ⟨hplace, hle⟩
  found_marked := hplaced.found_marked

/-- Text that is no token is reported at its place. -/
theorem ofInvalid_placedIn {text : String} (hmem : (text, span) ∈ invalidParts source) :
    (ofInvalid text span).PlacedIn source :=
  placedIn_of_span (marks_of_mem_invalidParts hmem).liesIn rfl

/-- Where the result is a fault, it points into the text. -/
def Checked (source : String) {α : Type} (result : Except Fault α) : Prop :=
  ∀ fault, result = .error fault → fault.PlacedIn source

theorem checked_ok {α : Type} (value : α) : Checked source (.ok value) :=
  fun _ hok => nomatch hok

theorem checked_error {α : Type} {fault : Fault} (hfault : fault.PlacedIn source) :
    Checked source (.error fault : Except Fault α) := by
  rintro _ ⟨⟩
  exact hfault

theorem Checked.bind {α β : Type} {result : Except Fault α} {next : α → Except Fault β}
    (hresult : Checked source result)
    (hnext : ∀ value, result = .ok value → Checked source (next value)) :
    Checked source (result >>= next) := by
  cases result with
  | error fault => exact checked_error (hresult fault rfl)
  | ok value => exact hnext value rfl

theorem Checked.ite {α : Type} {condition : Prop} [Decidable condition]
    {result result' : Except Fault α} (hresult : Checked source result)
    (hresult' : Checked source result') :
    Checked source (if condition then result else result') := by
  split
  · exact hresult
  · exact hresult'

/-- The report of a fault in a text shows its labels over the text as they are. -/
theorem PlacedIn.labelsOver_eq {fault : Fault} (hplaced : fault.PlacedIn source) :
    fault.diagnostic.labelsOver source = fault.diagnostic.labels := by
  have hlabel : ∀ label ∈ fault.diagnostic.labels, label.span.LiesIn source := by
    intro label hmem
    rcases List.mem_cons.mp hmem with rfl | hmem
    · exact hplaced.span_liesIn
    · obtain ⟨⟨place, note⟩, hrelated, rfl⟩ := List.mem_map.mp hmem
      exact (hplaced.related_liesIn place note (Option.mem_toList.mp hrelated)).1
  have hclamp : ∀ label ∈ fault.diagnostic.labels,
      { label with span := label.span.clamp source.utf8ByteSize } = id label := by
    intro label hmem
    rw [(hlabel label hmem).clamp_eq]
    rfl
  exact (List.map_congr_left hclamp).trans (List.map_id _)

end Fault

/-! ## Cursors in a text -/

namespace Cursor

/-- The cursor stands between the tokens of the text. -/
structure StandsIn (cursor : Cursor) (source : String) : Prop where
  tokens_eq : cursor.tokens = ODataOptions.tokens source
  ahead_ne_nil : cursor.ahead ≠ []

/-- Where the current token begins. -/
def offset (cursor : Cursor) : Nat := cursor.current.span.start

variable {cursor rest : Cursor} {source : String}

theorem standsIn_ofTokens (source : String) :
    (Cursor.ofTokens (ODataOptions.tokens source)).StandsIn source :=
  ⟨rfl, List.append_ne_nil_of_right_ne_nil _ (List.cons_ne_nil _ _)⟩

theorem StandsIn.exists_ahead (hcursor : cursor.StandsIn source) :
    ∃ behind, cursor.ahead = cursor.current :: behind := by
  cases hahead : cursor.ahead with
  | nil => exact absurd hahead hcursor.ahead_ne_nil
  | cons token behind =>
    refine ⟨behind, ?_⟩
    rw [current, hahead]

/-- There is always a current token, since the end of the input is one. -/
theorem StandsIn.current_mem (hcursor : cursor.StandsIn source) :
    cursor.current ∈ ODataOptions.tokens source := by
  obtain ⟨behind, hahead⟩ := hcursor.exists_ahead
  rw [← hcursor.tokens_eq, tokens, hahead]
  exact List.mem_append_right _ List.mem_cons_self

theorem StandsIn.current_liesIn (hcursor : cursor.StandsIn source) :
    cursor.current.span.LiesIn source :=
  (marks_of_mem_tokens hcursor.current_mem).liesIn

/-- The end of the input is the last token. -/
theorem getLast?_tokens (source : String) :
    (ODataOptions.tokens source).getLast? = some (.endOfInput source.utf8ByteSize) :=
  List.getLast?_concat

/-- The tokens between two cursors in a text, the last of which is the latest that was consumed. -/
theorem StandsIn.exists_passed (hcursor : cursor.StandsIn source) (hrest : rest.StandsIn source)
    (hlt : rest.ahead.length < cursor.ahead.length) :
    ∃ passed last, cursor.ahead = passed ++ last :: rest.ahead ∧ rest.previousSpan = last.span := by
  have htokens : cursor.consumed.reverse ++ cursor.ahead = rest.consumed.reverse ++ rest.ahead :=
    hcursor.tokens_eq.trans hrest.tokens_eq.symm
  rcases List.append_eq_append_iff.mp htokens with ⟨between, hconsumed, hahead⟩ | ⟨_, _, hahead⟩
  · rcases List.eq_nil_or_concat between with rfl | ⟨passed, last, rfl⟩
    · rw [hahead] at hlt
      exact absurd hlt (Nat.lt_irrefl _)
    · refine ⟨passed, last, by rw [hahead, List.concat_append], ?_⟩
      have hlast : rest.consumed.head? = some last := by
        rw [← List.getLast?_reverse, hconsumed, List.concat_eq_append, ← List.append_assoc,
          List.getLast?_concat]
      rw [previousSpan, previous?, hlast]
      rfl
  · rw [hahead, List.length_append] at hlt
    omega

theorem StandsIn.pairwise (hcursor : cursor.StandsIn source) :
    cursor.ahead.Pairwise fun first second => first.span.stop ≤ second.span.start := by
  have htokens := tokens_pairwise source
  rw [← hcursor.tokens_eq, tokens] at htokens
  exact (List.pairwise_append.mp htokens).2.1

/-- The token consumed last stands between the places where a parser began and stopped. -/
theorem StandsIn.previousSpan_between (hcursor : cursor.StandsIn source)
    (hrest : rest.StandsIn source) (hlt : rest.ahead.length < cursor.ahead.length) :
    rest.previousSpan.Between source cursor.offset rest.offset := by
  obtain ⟨passed, last, hahead, hlast⟩ := hcursor.exists_passed hrest hlt
  have hmem : last ∈ ODataOptions.tokens source := by
    rw [← hcursor.tokens_eq, tokens, hahead]
    simp
  have hordered := hcursor.pairwise
  rw [hahead] at hordered
  obtain ⟨-, hbehind, hbefore⟩ := List.pairwise_append.mp hordered
  rw [hlast]
  refine ⟨(marks_of_mem_tokens hmem).liesIn, ?_, ?_⟩
  · cases passed with
    | nil =>
      rw [offset, current, hahead]
      exact Nat.le_refl _
    | cons first passed =>
      have hfirst : cursor.current = first := by
        rw [current, hahead]
        rfl
      rw [offset, hfirst]
      exact Nat.le_trans (hfirst ▸ hcursor.current_liesIn).ordered
        (hbefore first List.mem_cons_self last List.mem_cons_self)
  · obtain ⟨behind, hnext⟩ := hrest.exists_ahead
    rw [hnext] at hbehind
    exact (List.pairwise_cons.mp hbehind).1 _ List.mem_cons_self

theorem StandsIn.advance (hcursor : cursor.StandsIn source) : cursor.advance.StandsIn source := by
  refine ⟨by rw [tokens_advance, hcursor.tokens_eq], fun hnil => ?_⟩
  by_cases hend : cursor.current.kind = .endOfInput
  · rw [advance_of_end hend] at hnil
    exact hcursor.ahead_ne_nil hnil
  · have hlast := getLast?_tokens source
    rw [← hcursor.tokens_eq, tokens, ahead_of_current hend, hnil, List.getLast?_concat] at hlast
    rw [Option.some.inj hlast] at hend
    exact hend rfl

/-- A token that is consumed stands between the cursors before and behind it. -/
theorem StandsIn.current_between (hcursor : cursor.StandsIn source) :
    cursor.current.span.Between source cursor.offset cursor.advance.offset := by
  refine ⟨hcursor.current_liesIn, Nat.le_refl _, ?_⟩
  by_cases hend : cursor.current.kind = .endOfInput
  · rw [advance_of_end hend, offset, eq_endOfInput_of_mem_tokens hcursor.current_mem hend]
    exact Nat.le_refl _
  · have hordered := hcursor.pairwise
    obtain ⟨behind, hnext⟩ := hcursor.advance.exists_ahead
    rw [ahead_of_current hend, hnext] at hordered
    exact (List.pairwise_cons.mp hordered).1 _ List.mem_cons_self

end Cursor

/-! ## Parsers -/

namespace Parser

variable {α β σ : Type} {source : String} {cursor : Cursor} {P Q : α → Nat → Prop}

/-- From the cursor, the parser points into the text with its faults and goes on to an offset that
satisfies the predicate together with the value. -/
def Locates (source : String) (cursor : Cursor) (parser : Parser α) (P : α → Nat → Prop) : Prop :=
  cursor.StandsIn source →
    match parser cursor with
    | .ok value rest => rest.StandsIn source ∧ cursor.offset ≤ rest.offset ∧ P value rest.offset
    | .error fault _ => fault.PlacedIn source

/-- From every cursor, the parser points into the text with its faults. -/
def Located (source : String) (parser : Parser α) : Prop :=
  ∀ cursor, Locates source cursor parser fun _ _ => True

/-! ### Sequencing -/

theorem Locates.of_ok {parser : Parser α} {rest : Cursor} {value : α}
    (hparser : Locates source cursor parser P) (hcursor : cursor.StandsIn source)
    (hrun : parser cursor = .ok value rest) :
    rest.StandsIn source ∧ cursor.offset ≤ rest.offset ∧ P value rest.offset := by
  have hvalue := hparser hcursor
  rwa [hrun] at hvalue

theorem Locates.of_error {parser : Parser α} {rest : Cursor} {fault : Fault}
    (hparser : Locates source cursor parser P) (hcursor : cursor.StandsIn source)
    (hrun : parser cursor = .error fault rest) : fault.PlacedIn source := by
  have hfault := hparser hcursor
  rwa [hrun] at hfault

theorem Locates.mono {parser : Parser α} (hparser : Locates source cursor parser P)
    (himp : ∀ value stop, cursor.offset ≤ stop → P value stop → Q value stop) :
    Locates source cursor parser Q := by
  intro hcursor
  cases hrun : parser cursor with
  | error => exact hparser.of_error hcursor hrun
  | ok value rest =>
    obtain ⟨hrest, hle, hvalue⟩ := hparser.of_ok hcursor hrun
    exact ⟨hrest, hle, himp value _ hle hvalue⟩

theorem Locates.pure {value : α} (hvalue : P value cursor.offset) :
    Locates source cursor (pure value) P :=
  fun hcursor => ⟨hcursor, Nat.le_refl _, hvalue⟩

/-- The second part begins where the first one has stopped, not before its start. -/
theorem Locates.bind {P : β → Nat → Prop} {parser : Parser β} {next : β → Parser α}
    (hparser : Locates source cursor parser P)
    (hnext : ∀ ⦃value rest⦄, parser cursor = .ok value rest → cursor.offset ≤ rest.offset →
      P value rest.offset → Locates source rest (next value) Q) :
    Locates source cursor (parser >>= next) Q := by
  intro hcursor
  rw [bind_run]
  cases hrun : parser cursor with
  | error => exact hparser.of_error hcursor hrun
  | ok first middle =>
    obtain ⟨hmiddle, hle, hfirst⟩ := hparser.of_ok hcursor hrun
    have hsecond := hnext hrun hle hfirst
    dsimp only
    cases hrest : next first middle with
    | error => exact hsecond.of_error hmiddle hrest
    | ok value rest =>
      obtain ⟨hlast, hle', hvalue⟩ := hsecond.of_ok hmiddle hrest
      exact ⟨hlast, Nat.le_trans hle hle', hvalue⟩

theorem Locates.get_bind {next : Cursor → Parser α}
    (hnext : Locates source cursor (next cursor) P) : Locates source cursor (get >>= next) P :=
  hnext

/-- The current token is one of the text, and the cursor stays. -/
theorem Locates.current_bind {next : Token → Parser α}
    (hnext : cursor.current ∈ tokens source → Locates source cursor (next cursor.current) P) :
    Locates source cursor (current >>= next) P := by
  intro hcursor
  rw [bind_run, current_run]
  exact hnext hcursor.current_mem hcursor

theorem locates_failHere {problem : Problem}
    (hfound : problem.key.reportsToken = true →
      problem.parameters.getLast? = some cursor.current.text) :
    Locates source cursor (failHere problem) P :=
  fun hcursor => Fault.placedIn_of_token hcursor.current_mem hfound

theorem locates_throw {fault : Fault} (hfault : cursor.StandsIn source → fault.PlacedIn source) :
    Locates source cursor (throw fault) P :=
  hfault

theorem locates_ofExcept {result : Except Fault α} (herror : Fault.Checked source result)
    (hok : ∀ value, result = .ok value → P value cursor.offset) :
    Locates source cursor (ofExcept result) P := by
  intro hcursor
  rw [ofExcept_run]
  cases result with
  | error fault => exact herror fault rfl
  | ok value => exact ⟨hcursor, Nat.le_refl _, hok value rfl⟩

/-! ### Tokens -/

/-- A token that is consumed is the one at the cursor. -/
theorem locates_takeIf (test : Token → Bool) :
    Locates source cursor (takeIf test) fun found stop => ∀ token ∈ found,
      token = cursor.current ∧ token ∈ tokens source ∧
        token.span.Between source cursor.offset stop := by
  intro hcursor
  rw [takeIf_run]
  by_cases htest : test cursor.current = true
  · rw [if_pos htest]
    have hbetween := hcursor.current_between
    refine ⟨hcursor.advance, ?_, ?_⟩
    · exact Nat.le_trans hbetween.liesIn.ordered hbetween.le_last
    · rintro _ ⟨⟩
      exact ⟨rfl, hcursor.current_mem, hbetween⟩
  · rw [if_neg htest]
    exact ⟨hcursor, Nat.le_refl _, fun _ hnone => nomatch hnone⟩

/-- The token that is consumed stands between the two offsets. -/
theorem locates_next :
    Locates source cursor next fun token stop =>
      token = cursor.current ∧ token ∈ tokens source ∧
        token.span.Between source cursor.offset stop := by
  intro hcursor
  have hbetween := hcursor.current_between
  rw [next_run]
  exact ⟨hcursor.advance, Nat.le_trans hbetween.liesIn.ordered hbetween.le_last, rfl,
    hcursor.current_mem, hbetween⟩

/-- The token that is tested is consumed, or the cursor stays. -/
theorem Locates.accept_bind {kind : TokenKind} {next : Bool → Parser α}
    (htrue : cursor.current.span.Between source cursor.offset cursor.advance.offset →
      Locates source cursor.advance (next true) P)
    (hfalse : Locates source cursor (next false) P) :
    Locates source cursor (accept kind >>= next) P := by
  intro hcursor
  have hbetween := hcursor.current_between
  by_cases hfound : cursor.current.isA kind = true
  · have hrun : accept kind cursor = .ok true cursor.advance := by
      rw [accept_run, if_pos hfound]
    have haccept : Locates source cursor (accept kind) fun found stop =>
        found = true ∧ stop = cursor.advance.offset := by
      intro _
      rw [hrun]
      exact ⟨hcursor.advance, Nat.le_trans hbetween.liesIn.ordered hbetween.le_last, rfl, rfl⟩
    refine haccept.bind (fun found rest hfound _ _ => ?_) hcursor
    rw [hrun] at hfound
    cases hfound
    exact htrue hbetween
  · rw [bind_run, accept_run, if_neg hfound]
    exact hfalse hcursor

theorem locates_unexpected (expected : String) :
    Locates source cursor (unexpected expected) P :=
  .current_bind fun _ => locates_failHere fun _ => rfl

theorem locates_expect (kind : TokenKind) :
    Locates source cursor (expect kind) fun token stop =>
      token = cursor.current ∧ token ∈ tokens source ∧
        token.span.Between source cursor.offset stop := by
  apply (locates_takeIf _).bind
  intro found rest hrun _ htoken
  cases found with
  | none => exact locates_unexpected _
  | some token => exact .pure (htoken token rfl)

theorem Locates.nested {parser : Parser α} {limit : Nat}
    (hparser : ∀ depth, Locates source { cursor with depth } parser P) :
    Locates source cursor (nested limit parser) P := by
  intro hcursor
  rw [Parser.nested]
  by_cases hlimit : limit ≤ cursor.depth
  · rw [if_pos hlimit]
    exact Fault.placedIn_of_token hcursor.current_mem fun hreports =>
      absurd hreports Bool.false_ne_true
  · rw [if_neg hlimit]
    have hopened : Cursor.StandsIn { cursor with depth := cursor.depth + 1 } source :=
      ⟨hcursor.tokens_eq, hcursor.ahead_ne_nil⟩
    cases hrun : parser { cursor with depth := cursor.depth + 1 } with
    | error fault last => exact (hparser _).of_error hopened hrun
    | ok value last =>
      obtain ⟨hlast, hrest⟩ := (hparser _).of_ok hopened hrun
      exact ⟨⟨hlast.tokens_eq, hlast.ahead_ne_nil⟩, hrest⟩

/-! ### Loops -/

section Loops

variable {I : σ → Nat → Prop} {V : α → Prop}

theorem Locates.iterate {step : σ → Parser (Option σ)} {state : σ}
    (hstep : ∀ ⦃rest state⦄, cursor.offset ≤ rest.offset → I state rest.offset →
      Locates source rest (step state) fun next? stop => I (next?.getD state) stop)
    (hstate : I state cursor.offset) : Locates source cursor (iterate step state) I := by
  have hrounds : ∀ rounds rest state, cursor.offset ≤ rest.offset → I state rest.offset →
      Locates source rest (iterateUpTo step rounds state) I := by
    intro rounds
    induction rounds with
    | zero => exact fun _ _ _ hstate => .pure hstate
    | succ rounds ih =>
      intro rest state hle hstate
      apply (hstep hle hstate).bind
      intro next? last _ hnext hstate
      cases next? with
      | none => exact .pure hstate
      | some next => exact ih last next (Nat.le_trans hle hnext) hstate
  exact hrounds _ cursor state (Nat.le_refl _) hstate

theorem Locates.unfold {step : σ → Parser (α × Option σ)} {state : σ}
    (hstep : ∀ ⦃rest state⦄, cursor.offset ≤ rest.offset → I state rest.offset →
      Locates source rest (step state) fun result stop =>
        V result.1 ∧ ∀ next ∈ result.2, I next stop)
    (hstate : I state cursor.offset) :
    Locates source cursor (unfold step state) fun values _ => ∀ value ∈ values, V value := by
  have hrounds : ∀ rounds rest state, cursor.offset ≤ rest.offset → I state rest.offset →
      Locates source rest (unfoldUpTo step rounds state) fun values _ =>
        ∀ value ∈ values, V value := by
    intro rounds
    induction rounds with
    | zero => exact fun _ _ _ _ => .pure fun _ hmem => nomatch hmem
    | succ rounds ih =>
      intro rest state hle hstate
      apply (hstep hle hstate).bind
      intro result last _ hlast hresult
      obtain ⟨value, next?⟩ := result
      cases next? with
      | none => exact .pure (List.forall_mem_singleton.mpr hresult.1)
      | some next =>
        refine (ih last next (Nat.le_trans hle hlast) (hresult.2 next rfl)).bind ?_
        exact fun values _ _ _ hvalues => .pure (List.forall_mem_cons.mpr ⟨hresult.1, hvalues⟩)
  exact hrounds _ cursor state (Nat.le_refl _) hstate

end Loops

/-! ### Parsers whose values do not matter -/

section Located

variable {parser : Parser α}

theorem Locates.located {P : Cursor → α → Nat → Prop}
    (hparser : ∀ cursor, Locates source cursor parser (P cursor)) : Located source parser :=
  fun cursor => (hparser cursor).mono fun _ _ _ _ => trivial

theorem located_pure (value : α) : Located source (pure value) := fun _ => .pure trivial

theorem Located.bind {next : α → Parser β} (hparser : Located source parser)
    (hnext : ∀ value, Located source (next value)) : Located source (parser >>= next) := by
  intro cursor
  apply (hparser cursor).bind
  intro value rest _ _ _
  exact hnext value rest

theorem Located.map (hparser : Located source parser) (f : α → β) :
    Located source (parser >>= fun value => Pure.pure (f value)) := by
  apply hparser.bind
  intro value
  exact located_pure (f value)

theorem located_current : Located source current :=
  fun _ hcursor => ⟨hcursor, Nat.le_refl _, trivial⟩

theorem located_takeIf (test : Token → Bool) : Located source (takeIf test) :=
  Locates.located fun _ => locates_takeIf test

theorem located_accept (kind : TokenKind) : Located source (accept kind) :=
  (located_takeIf _).map _

theorem located_acceptWord (word : String) : Located source (acceptWord word) :=
  (located_takeIf _).map _

theorem located_next : Located source next := Locates.located fun _ => locates_next

theorem located_expect (kind : TokenKind) : Located source (expect kind) :=
  Locates.located fun _ => locates_expect kind

theorem located_unexpected (expected : String) :
    Located source (unexpected expected : Parser α) :=
  fun _ => locates_unexpected expected

theorem located_failHere {problem : Problem} (hkey : problem.key.reportsToken = false) :
    Located source (failHere problem : Parser α) :=
  fun _ => locates_failHere fun hreports => absurd (hkey.symm.trans hreports) Bool.false_ne_true

theorem located_oneOfWords (word : α → String) (meanings : List α) :
    Located source (oneOfWords word meanings) := by
  induction meanings with
  | nil => exact located_pure none
  | cons meaning meanings ih =>
    apply (located_acceptWord _).bind
    intro found
    cases found with
    | true => exact located_pure (some meaning)
    | false => exact ih

theorem Located.ite {condition : Prop} [Decidable condition] {parser' : Parser α}
    (hparser : Located source parser) (hparser' : Located source parser') :
    Located source (if condition then parser else parser') := by
  split
  · exact hparser
  · exact hparser'

theorem Located.nested (hparser : Located source parser) (limit : Nat) :
    Located source (nested limit parser) :=
  fun _ => .nested fun _ => hparser _

theorem Located.iterate {step : σ → Parser (Option σ)} (hstep : ∀ state, Located source (step state))
    (state : σ) : Located source (iterate step state) :=
  fun _ => .iterate (fun rest state _ _ => hstep state rest) trivial

theorem Located.unfold {step : σ → Parser (α × Option σ)}
    (hstep : ∀ state, Located source (step state)) (state : σ) :
    Located source (unfold step state) := by
  apply Locates.located
  intro cursor
  apply Locates.unfold (I := fun _ _ => True) (V := fun _ => True) _ trivial
  intro rest state _ _
  exact (hstep state rest).mono fun _ _ _ _ => ⟨trivial, fun _ _ => trivial⟩

theorem Located.separated (hparser : Located source parser) (separator : TokenKind) :
    Located source (separated parser separator) := by
  apply Located.unfold
  intro _
  apply hparser.bind
  intro _
  exact (located_accept separator).map _

theorem Located.chain {operator? : Parser (Option β)} {combine : β → α → α → Except Fault α}
    (hoperand : Located source parser) (hoperator : Located source operator?)
    (hcombine : ∀ operator left right, Fault.Checked source (combine operator left right)) :
    Located source (chain parser operator? combine) := by
  apply hoperand.bind
  apply Located.iterate
  intro left
  apply hoperator.bind
  intro found
  cases found with
  | none => exact located_pure none
  | some operator =>
    apply hoperand.bind
    intro right
    exact Located.map (fun _ => locates_ofExcept (hcombine _ _ _) fun _ _ => trivial) _

end Located

/-- An invariant that is not lost on the way holds behind the last step. -/
theorem Locates.separatedFrom {step : σ → Parser σ} {I : σ → Nat → Prop} {state : σ} (separator : TokenKind)
    (hmono : ∀ ⦃state before behind⦄, before ≤ behind → I state before → I state behind)
    (hstep : ∀ ⦃rest state⦄, I state rest.offset → Locates source rest (step state) I)
    (hstate : I state cursor.offset) :
    Locates source cursor (separatedFrom step separator state) I := by
  apply (hstep hstate).bind
  intro first rest _ _ hfirst
  apply Locates.iterate _ hfirst
  intro rest state _ hstate
  apply (located_accept separator rest).bind
  intro found last _ hlast _
  have hbehind := hmono hlast hstate
  cases found with
  | false => exact .pure hbehind
  | true =>
    apply (hstep hbehind).bind
    intro next stop _ _ hnext
    exact .pure hnext

/-! ### Whole texts -/

section Whole

variable {parser : Parser α}

theorem Located.complete (hparser : Located source parser) (option : OptionKind) :
    Located source (complete option parser) := by
  apply hparser.bind
  intro value cursor
  refine .current_bind ?_
  intro _
  split
  · exact .pure trivial
  · exact locates_failHere fun _ => rfl

theorem Located.onTokens (hparser : Located source parser) :
    Fault.Checked source (parser.onTokens (tokens source)) := by
  have hstart := Cursor.standsIn_ofTokens source
  intro fault hfails
  rw [Parser.onTokens, EStateM.run] at hfails
  cases hrun : parser (.ofTokens (tokens source)) with
  | ok value rest =>
    rw [hrun] at hfails
    cases hfails
  | error found rest =>
    rw [hrun] at hfails
    cases hfails
    exact (hparser _).of_error hstart hrun

/-- Text that is no token is a fault in the text. -/
theorem checked_tokensOrFault (source : String) : Fault.Checked source (tokensOrFault source) := by
  rw [tokensOrFault]
  cases hinvalid : invalidParts source with
  | nil => exact Fault.checked_ok _
  | cons part parts =>
    exact Fault.checked_error (Fault.ofInvalid_placedIn (hinvalid ▸ List.mem_cons_self))

theorem eq_tokens_of_tokensOrFault {found : List Token}
    (hfound : tokensOrFault source = .ok found) : found = tokens source := by
  rw [tokensOrFault] at hfound
  split at hfound <;> cases hfound
  rfl

theorem Located.onText (hparser : Located source parser) :
    Fault.Checked source (parser.onText source) := by
  apply (checked_tokensOrFault source).bind
  intro found hfound
  rw [eq_tokens_of_tokensOrFault hfound]
  exact hparser.onTokens

end Whole

end Parser

end ODataOptions
