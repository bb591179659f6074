import ODataOptions.Proofs.Parser.Moves
import ODataOptions.Proofs.Parser.Refuses

/-!
# Parsers of values do not look behind the value

The value of an option ends before a semicolon, a closing parenthesis or the end of the input, and an item
in a list of values may end before a comma too.  `Parser.Mirrors extent erase parser parser'` compares the
runs of two parsers before the same words, behind which a value or an item ends in one of these ways, not
necessarily in the same: where the first run stays within the words, the second one has the same value, up
to the places that `erase` removes, and stops at the same word.  The extent says how far the parser may go
for that.
-/

namespace ODataOptions

open ODataOptions.Parser

/-- How far a parser goes in the words before it: never up to the last one, up to the end of a value, or
up to the end of an item in a list of values. -/
inductive Extent
  | inside
  | value
  | item

namespace Extent

def kinds : Extent → List TokenKind
  | inside => []
  | value => [.semicolon, .closeParen, .endOfInput]
  | item => [.comma, .semicolon, .closeParen, .endOfInput]

theorem identifier_not_mem (extent : Extent) : .identifier ∉ extent.kinds := by
  cases extent <;> decide

end Extent

namespace Word

/-- What goes so far ends before the word. -/
def EndsAt (word : Word) (extent : Extent) : Prop := word.kind ∈ extent.kinds

namespace EndsAt

variable {word : Word} {extent : Extent} (hends : word.EndsAt extent)

include hends

theorem kind_ne {kind : TokenKind} (hkind : kind ∉ extent.kinds) : word.kind ≠ kind := by
  rintro rfl
  exact hkind hends

theorem isA_eq_false {kind : TokenKind} (hkind : kind ∉ extent.kinds) : word.isA kind = false := by
  have hidentifier := hends.kind_ne extent.identifier_not_mem
  have hother := hends.kind_ne hkind
  rw [isA, Token.isA]
  split
  · simp [hidentifier]
  · simp [hother]

theorem isWord_eq_false (text : String) : word.isWord text = false := by
  have hidentifier := hends.kind_ne extent.identifier_not_mem
  simp [isWord, hidentifier]

end EndsAt

end Word

namespace Cursor

/-- At both cursors something ends that goes so far. -/
structure EndAt (extent : Extent) (stop stop' : Cursor) : Prop where
  first : stop.current.word.EndsAt extent
  second : stop'.current.word.EndsAt extent

/-- At both cursors an item ends, and as many levels are open. -/
structure EndsAlike (stop stop' : Cursor) : Prop extends EndAt .item stop stop' where
  depth : stop.depth = stop'.depth

variable {stop stop' cursor cursor' : Cursor} {words : List Word}

theorem EndsAlike.withDepth (hends : stop.EndsAlike stop') (depth : Nat) :
    EndsAlike { stop with depth } { stop' with depth } :=
  ⟨⟨hends.first, hends.second⟩, rfl⟩

/-- Before the same words, as many levels are open. -/
theorem EndsAlike.depth_eq (hends : stop.EndsAlike stop') (hwords : cursor.Passes words stop)
    (hwords' : cursor'.Passes words stop') : cursor.depth = cursor'.depth := by
  rw [← hwords.depth_eq, ← hwords'.depth_eq, hends.depth]

end Cursor

namespace Parser

variable {α β γ δ σ τ : Type}

/-- Where the first run, from one cursor, goes no further than its extent admits, the second one, from
the other cursor, does the same. -/
def Follows (extent : Extent) (erase : α → β) (parser parser' : Parser α)
    (stop stop' cursor cursor' : Cursor) : Prop :=
  ∀ ⦃value rest more⦄, parser cursor = .ok value rest → rest.Passes more stop →
    (more = [] → Cursor.EndAt extent stop stop') →
    ∃ value' rest', parser' cursor' = .ok value' rest' ∧ erase value = erase value' ∧
      rest'.Passes more stop'

/-- Before the same words, the second parser follows the first one. -/
structure Mirrors (extent : Extent) (erase : α → β) (parser parser' : Parser α) : Prop where
  moves : Moves parser
  follows : ∀ ⦃stop stop' : Cursor⦄, stop.EndsAlike stop' → ∀ ⦃cursor cursor' words⦄,
    cursor.Passes words stop → cursor'.Passes words stop' →
      Follows extent erase parser parser' stop stop' cursor cursor'

variable {extent : Extent} {erase : α → β} {parser parser' : Parser α}

/-- From the end of the value, a parser that stays before it stays there. -/
theorem Moves.nil_of_stop (hparser : Moves parser) {stop rest : Cursor} {value : α}
    {more : List Word} (hrun : parser stop = .ok value rest) (hmore : rest.Passes more stop) :
    more = [] :=
  hmore.eq_nil (hparser.length_le hrun)

/-- A parser is followed from the end of the value, and from words before it. -/
theorem mirrors_of_cases (hmoves : Moves parser)
    (hstop : ∀ {stop stop' : Cursor}, stop.EndsAlike stop' → Cursor.EndAt extent stop stop' →
      Follows extent erase parser parser' stop stop' stop stop')
    (hword : ∀ {stop stop' : Cursor}, stop.EndsAlike stop' → ∀ {cursor cursor' : Cursor} {word words},
      cursor.Passes (word :: words) stop → cursor'.Passes (word :: words) stop' →
        Follows extent erase parser parser' stop stop' cursor cursor') :
    Mirrors extent erase parser parser' := by
  refine ⟨hmoves, ?_⟩
  intro stop stop' hends cursor cursor' words hwords hwords'
  cases words with
  | cons word words => exact hword hends hwords hwords'
  | nil =>
    cases hwords
    cases hwords'
    intro value rest more hrun hmore hreach
    have hnil := hmoves.nil_of_stop hrun hmore
    exact hstop hends (hreach hnil) hrun hmore hreach

/-- What is known of a larger extent is known of a smaller one. -/
theorem Mirrors.narrow {larger : Extent} (hparser : Mirrors larger erase parser parser')
    (hkinds : extent.kinds ⊆ larger.kinds) : Mirrors extent erase parser parser' := by
  refine ⟨hparser.moves, ?_⟩
  intro stop stop' hends cursor cursor' words hwords hwords' value rest more hrun hmore hreach
  apply hparser.follows hends hwords hwords' hrun hmore
  intro hnil
  exact ⟨hkinds (hreach hnil).first, hkinds (hreach hnil).second⟩

/-- What follows from less is known of less. -/
theorem Mirrors.coarsen {coarse : α → γ} (hparser : Mirrors extent erase parser parser')
    (hcoarse : ∀ value value', erase value = erase value' → coarse value = coarse value') :
    Mirrors extent coarse parser parser' := by
  refine ⟨hparser.moves, ?_⟩
  intro stop stop' hends cursor cursor' words hwords hwords' value rest more hrun hmore hreach
  obtain ⟨value', rest', hrun', hsame, hmore'⟩ :=
    hparser.follows hends hwords hwords' hrun hmore hreach
  exact ⟨value', rest', hrun', hcoarse value value' hsame, hmore'⟩

/-! ## Sequencing -/

theorem mirrors_pure {value value' : α} (hsame : erase value = erase value') :
    Mirrors extent erase (pure value) (pure value') := by
  refine ⟨moves_pure value, ?_⟩
  intro stop stop' _ cursor cursor' words hwords hwords' _ rest more hrun hmore _
  cases hrun
  rw [hmore.unique hwords]
  exact ⟨value', cursor', rfl, hsame, hwords'⟩

/-- Nothing is said of a parser that fails. -/
theorem mirrors_of_fails (hmoves : Moves parser)
    (hfails : ∀ cursor, ∃ fault last, parser cursor = .error fault last) :
    Mirrors extent erase parser parser' := by
  refine ⟨hmoves, ?_⟩
  intro stop stop' _ cursor cursor' words _ _ value rest more hrun
  obtain ⟨fault, last, herror⟩ := hfails cursor
  rw [herror] at hrun
  cases hrun

theorem mirrors_throw (fault : Fault) : Mirrors extent erase (throw fault) parser' :=
  mirrors_of_fails (moves_throw fault) fun _ => ⟨_, _, rfl⟩

theorem mirrors_failHere (problem : Problem) : Mirrors extent erase (failHere problem) parser' :=
  mirrors_of_fails (moves_failHere problem) fun _ => ⟨_, _, rfl⟩

theorem mirrors_unexpected (expected : String) : Mirrors extent erase (unexpected expected) parser' :=
  mirrors_of_fails (moves_unexpected expected) fun _ => ⟨_, _, rfl⟩

theorem mirrors_ofExcept {result result' : Except Fault α}
    (hsame : ∀ value, result = .ok value → ∃ value', result' = .ok value' ∧ erase value = erase value') :
    Mirrors extent erase (ofExcept result) (ofExcept result') := by
  cases result with
  | error fault => exact mirrors_throw fault
  | ok value =>
    obtain ⟨value', rfl, hvalue⟩ := hsame value rfl
    exact mirrors_pure hvalue

section Bind

variable {next next' : α → Parser γ} {keep : γ → δ}

/-- In a sequence, the first part may have a smaller extent than the second one if that consumes a token,
such as a closing parenthesis. -/
theorem Follows.bind {smaller : Extent} {stop stop' cursor cursor' : Cursor}
    (hparser : Follows smaller erase parser parser' stop stop' cursor cursor')
    (hextent : extent.kinds ⊆ smaller.kinds ∨ ∀ value, Consumes (next value))
    (hmoves : ∀ value, Moves (next value))
    (hnext : ∀ {value value' middle middle' words}, erase value = erase value' →
      parser cursor = .ok value middle → parser' cursor' = .ok value' middle' →
      middle.Passes words stop → middle'.Passes words stop' →
        Follows extent keep (next value) (next' value') stop stop' middle middle') :
    Follows extent keep (parser >>= next) (parser' >>= next') stop stop' cursor cursor' := by
  intro value rest more hrun hmore hreach
  obtain ⟨first, middle, hfirst, hsecond⟩ := bind_eq_ok_iff.mp hrun
  obtain ⟨between, hbetween⟩ := (hmoves first).passes hsecond
  have hreachFirst : between ++ more = [] → Cursor.EndAt smaller stop stop' := by
    intro hnil
    obtain ⟨rfl, rfl⟩ := List.append_eq_nil_iff.mp hnil
    rcases hextent with hkinds | hconsumes
    · exact ⟨hkinds (hreach rfl).first, hkinds (hreach rfl).second⟩
    · rw [hbetween.eq_of_nil] at hsecond
      exact absurd (hconsumes first hsecond) (Nat.lt_irrefl _)
  obtain ⟨first', middle', hfirst', hsame, hmiddle'⟩ :=
    hparser hfirst (hbetween.trans hmore) hreachFirst
  obtain ⟨value', rest', hsecond', hvalue, hmore'⟩ :=
    hnext hsame hfirst hfirst' (hbetween.trans hmore) hmiddle' hsecond hmore hreach
  exact ⟨value', rest', bind_eq_ok_iff.mpr ⟨first', middle', hfirst', hsecond'⟩, hvalue, hmore'⟩

/-- The first part stays within the second extent, or else the second part consumes a token. -/
theorem Mirrors.bind_of_extent {smaller : Extent} (hparser : Mirrors smaller erase parser parser')
    (hextent : extent.kinds ⊆ smaller.kinds ∨ ∀ value, Consumes (next value))
    (hnext : ∀ value value', erase value = erase value' →
      Mirrors extent keep (next value) (next' value')) :
    Mirrors extent keep (parser >>= next) (parser' >>= next') := by
  have hmoves := fun value => (hnext value value rfl).moves
  refine ⟨hparser.moves.bind hmoves, ?_⟩
  intro stop stop' hends cursor cursor' words hwords hwords'
  apply (hparser.follows hends hwords hwords').bind hextent hmoves
  intro value value' middle middle' _ hsame _ _ hmiddle hmiddle'
  exact (hnext value value' hsame).follows hends hmiddle hmiddle'

theorem Mirrors.bind (hparser : Mirrors extent erase parser parser')
    (hnext : ∀ value value', erase value = erase value' →
      Mirrors extent keep (next value) (next' value')) :
    Mirrors extent keep (parser >>= next) (parser' >>= next') :=
  hparser.bind_of_extent (.inl (List.Subset.refl _)) hnext

/-- A parser is run inside parentheses if the next one consumes the closing one. -/
theorem Mirrors.bind_inside (hparser : Mirrors .inside erase parser parser')
    (hconsumes : ∀ value, Consumes (next value))
    (hnext : ∀ value value', erase value = erase value' →
      Mirrors extent keep (next value) (next' value')) :
    Mirrors extent keep (parser >>= next) (parser' >>= next') :=
  hparser.bind_of_extent (.inr hconsumes) hnext

theorem Mirrors.map {f f' : α → γ} (hparser : Mirrors extent erase parser parser')
    (hf : ∀ value value', erase value = erase value' → keep (f value) = keep (f' value')) :
    Mirrors extent keep (parser >>= fun value => pure (f value))
      (parser' >>= fun value => pure (f' value)) := by
  apply hparser.bind
  intro value value' hsame
  exact mirrors_pure (hf value value' hsame)

/-- A value that is known as a whole. -/
theorem Mirrors.bind_id (hparser : Mirrors extent id parser parser')
    (hnext : ∀ value, Mirrors extent keep (next value) (next' value)) :
    Mirrors extent keep (parser >>= next) (parser' >>= next') := by
  apply hparser.bind
  intro value value' hsame
  rw [show value = value' from hsame]
  exact hnext value'

theorem Mirrors.bind_bool {choice choice' : Parser Bool} {next next' : Bool → Parser γ}
    (hchoice : Mirrors extent id choice choice') (htrue : Mirrors extent keep (next true) (next' true))
    (hfalse : Mirrors extent keep (next false) (next' false)) :
    Mirrors extent keep (choice >>= next) (choice' >>= next') := by
  apply hchoice.bind_id
  intro found
  cases found with
  | true => exact htrue
  | false => exact hfalse

/-- A token that may be there, of which the word is known. -/
theorem Mirrors.bind_token {token? token?' : Parser (Option Token)}
    {next next' : Option Token → Parser γ}
    (htoken : Mirrors extent (Option.map Token.word) token? token?')
    (hsome : ∀ token token' : Token, token.word = token'.word →
      Mirrors extent keep (next (some token)) (next' (some token')))
    (hnone : Mirrors extent keep (next none) (next' none)) :
    Mirrors extent keep (token? >>= next) (token?' >>= next') := by
  apply htoken.bind
  intro found found' hsame
  match found, found', hsame with
  | none, none, _ => exact hnone
  | some token, some token', hsame => exact hsome token token' (Option.some.inj hsame)

end Bind

/-! ## Tokens -/

/-- Nothing is said of a parser that fails where a value ends. -/
theorem follows_of_refuses (hrefuses : Refuses parser (·.EndsAt extent))
    {stop stop' cursor cursor' : Cursor} (hends : cursor.current.word.EndsAt extent) :
    Follows extent erase parser parser' stop stop' cursor cursor' := by
  intro value rest more hrun
  obtain ⟨fault, last, herror⟩ := hrefuses cursor hends
  rw [herror] at hrun
  cases hrun

section Current

variable {next next' : Token → Parser α}
  (hsame : ∀ token token' : Token, token.word = token'.word →
    Mirrors extent erase (next token) (next' token'))

include hsame

/-- Before the end of the value, the current tokens are the same word. -/
theorem mirrors_current_of_stop
    (hstop : ∀ {stop stop' : Cursor}, stop.EndsAlike stop' → Cursor.EndAt extent stop stop' →
      Follows extent erase (current >>= next) (current >>= next') stop stop' stop stop') :
    Mirrors extent erase (current >>= next) (current >>= next') := by
  apply mirrors_of_cases _ hstop
  · intro stop stop' hends cursor cursor' word words hwords hwords'
    exact (hsame _ _ (hwords.current_word_eq hwords')).follows hends hwords hwords'
  · apply moves_current.bind
    intro token
    exact (hsame token token rfl).moves

/-- Both tokens are the same word, or the value ends before both. -/
theorem mirrors_current
    (hends : ∀ token token' : Token, token.word.EndsAt extent → token'.word.EndsAt extent →
      Mirrors extent erase (next token) (next' token')) :
    Mirrors extent erase (current >>= next) (current >>= next') :=
  mirrors_current_of_stop hsame fun {stop stop'} hstop hend =>
    (hends _ _ hend.first hend.second).follows hstop (.nil stop) (.nil stop')

/-- Where nothing can be parsed at the end of a value, the tokens are the same word. -/
theorem mirrors_current_of_refuses (hrefuses : Refuses (current >>= next) (·.EndsAt extent)) :
    Mirrors extent erase (current >>= next) (current >>= next') :=
  mirrors_current_of_stop hsame fun _ hend => follows_of_refuses hrefuses hend.first

end Current

/-- A choice by a test of the word, which no word passes that a value ends before. -/
theorem mirrors_current_test {next next' : Token → Parser α} (test : Word → Bool)
    (hends : ∀ word : Word, word.EndsAt extent → test word = false)
    (hnext : ∀ token token' : Token, test token.word = test token'.word →
      Mirrors extent erase (next token) (next' token')) :
    Mirrors extent erase (current >>= next) (current >>= next') := by
  apply mirrors_current
  · intro token token' hword
    exact hnext token token' (congrArg test hword)
  · intro token token' htoken htoken'
    exact hnext token token' ((hends _ htoken).trans (hends _ htoken').symm)

/-- No item ends before a token of the kind that is looked for behind the current one. -/
theorem mirrors_peek {first first' second second' : Parser α} {kind : TokenKind}
    (hkind : kind ∉ Extent.item.kinds)
    (hfirst : Mirrors extent erase first first') (hsecond : Mirrors extent erase second second')
    (hrefuses : Refuses first (·.EndsAt extent)) (hrefuses' : Refuses second (·.EndsAt extent)) :
    Mirrors extent erase (get >>= fun cursor => if cursor.peek.kind = kind then first else second)
      (get >>= fun cursor => if cursor.peek.kind = kind then first' else second') := by
  have hrun : ∀ (cursor : Cursor) (some other : Parser α),
      (get >>= fun cursor : Cursor => if cursor.peek.kind = kind then some else other) cursor =
        if cursor.peek.kind = kind then some cursor else other cursor := by
    intro cursor some other
    rw [bind_run, get_run]
    dsimp only
    split <;> rfl
  apply mirrors_of_cases
  · apply moves_get.bind
    intro cursor
    split
    · exact hfirst.moves
    · exact hsecond.moves
  · intro stop stop' _ hend
    apply follows_of_refuses _ hend.first
    intro cursor hends
    rw [hrun]
    split
    · exact hrefuses cursor hends
    · exact hrefuses' cursor hends
  · intro stop stop' hstop cursor cursor' word words hwords hwords'
    have hpeek : cursor.peek.kind = kind ↔ cursor'.peek.kind = kind := by
      rw [Cursor.peek_kind (hwords.current_kind_ne (List.cons_ne_nil _ _)),
        Cursor.peek_kind (hwords'.current_kind_ne (List.cons_ne_nil _ _))]
      have hbehind := hwords.advance
      have hbehind' := hwords'.advance
      cases words with
      | nil =>
        rw [hbehind.eq_of_nil, hbehind'.eq_of_nil]
        exact iff_of_false (hstop.first.kind_ne hkind) (hstop.second.kind_ne hkind)
      | cons next words =>
        rw [← Token.word_kind, ← Token.word_kind, hbehind.current_word, hbehind'.current_word]
    intro value rest more
    rw [hrun, hrun]
    by_cases htest : cursor.peek.kind = kind
    · rw [if_pos htest, if_pos (hpeek.mp htest)]
      apply hfirst.follows hstop hwords hwords'
    · rw [if_neg htest, if_neg fun h => htest (hpeek.mpr h)]
      apply hsecond.follows hstop hwords hwords'

/-- Where the places alone are asked for, nothing needs to be known of the tokens. -/
theorem mirrors_get : Mirrors extent (fun _ => ()) get get := by
  refine ⟨moves_get, ?_⟩
  intro stop stop' _ cursor cursor' words hwords hwords' value rest more hrun hmore _
  cases hrun
  rw [hmore.unique hwords]
  exact ⟨cursor', cursor', rfl, rfl, hwords'⟩

/-- A token is taken by its word, and nothing of the extent ends before it. -/
theorem mirrors_takeIf {test : Token → Bool}
    (hsame : ∀ token token' : Token, token.word = token'.word → test token = test token')
    (hends : ∀ token : Token, token.word.EndsAt extent → test token = false) :
    Mirrors extent (Option.map Token.word) (takeIf test) (takeIf test) := by
  apply mirrors_of_cases (moves_takeIf test)
  · intro stop stop' _ hend value rest more hrun hmore _
    rw [takeIf_run, hends _ hend.first] at hrun
    cases hrun
    rw [hmore.unique (.nil _)]
    refine ⟨none, stop', ?_, rfl, .nil stop'⟩
    rw [takeIf_run, hends _ hend.second]
    rfl
  · intro stop stop' hstop cursor cursor' word words hwords hwords' value rest more hrun hmore _
    have hword := hwords.current_word_eq hwords'
    rw [takeIf_run] at hrun
    rw [takeIf_run, ← hsame _ _ hword]
    split at hrun
    · next htest =>
      cases hrun
      rw [if_pos htest, hmore.unique hwords.advance]
      exact ⟨_, _, rfl, congrArg some hword, hwords'.advance⟩
    · next htest =>
      cases hrun
      rw [if_neg htest, hmore.unique hwords]
      exact ⟨_, _, rfl, rfl, hwords'⟩

/-- A kind of token that nothing of the extent ends before. -/
theorem mirrors_take? {kind : TokenKind}
    (hkind : kind ∉ extent.kinds) :
    Mirrors extent (Option.map Token.word) (take? kind) (take? kind) := by
  apply mirrors_takeIf
  · intro token token' hword
    rw [← Token.isA_word, ← Token.isA_word, hword]
  · intro token hends
    exact hends.isA_eq_false hkind

theorem mirrors_accept {kind : TokenKind}
    (hkind : kind ∉ extent.kinds) :
    Mirrors extent id (accept kind) (accept kind) := by
  apply (mirrors_take? hkind).map
  intro token? token?' hsame
  rw [id, id, ← Option.isSome_map, hsame, Option.isSome_map]

theorem mirrors_acceptWord (word : String) :
    Mirrors extent id (acceptWord word) (acceptWord word) := by
  have htake : Mirrors extent (Option.map Token.word) (takeIf (·.isWord word))
      (takeIf (·.isWord word)) := by
    apply mirrors_takeIf
    · intro token token' hword
      rw [← Token.isWord_word, ← Token.isWord_word, hword]
    · intro token hends
      rw [← Token.isWord_word]
      exact hends.isWord_eq_false word
  apply htake.map
  intro token? token?' hsame
  rw [id, id, ← Option.isSome_map, hsame, Option.isSome_map]

theorem mirrors_oneOfWords (word : α → String) (meanings : List α) :
    Mirrors extent id (oneOfWords word meanings) (oneOfWords word meanings) := by
  induction meanings with
  | nil => exact mirrors_pure rfl
  | cons meaning meanings ih =>
    exact (mirrors_acceptWord _).bind_bool (mirrors_pure rfl) ih

/-- Only the end of the input is not consumed. -/
theorem mirrors_expect {kind : TokenKind} (hkind : kind ≠ .endOfInput) :
    Mirrors extent Token.word (expect kind) (expect kind) := by
  apply mirrors_of_cases (moves_expect kind)
  · intro stop stop' _ _ token rest more hrun hmore _
    rw [(moves_expect kind).nil_of_stop hrun hmore] at hmore
    rw [hmore.eq_of_nil] at hrun
    exact absurd (consumes_expect hkind hrun) (Nat.lt_irrefl _)
  · intro stop stop' hstop cursor cursor' word words hwords hwords' token rest more hrun hmore _
    have hword := hwords.current_word_eq hwords'
    rw [expect_run] at hrun
    rw [expect_run, ← Token.isA_word, ← hword, Token.isA_word]
    split at hrun
    · next htest =>
      cases hrun
      rw [if_pos htest, hmore.unique hwords.advance]
      exact ⟨_, _, rfl, hword, hwords'.advance⟩
    · cases hrun

/-- Before the end of the value, there is a token ahead. -/
theorem follows_next {stop stop' cursor cursor' : Cursor} {word : Word} {words : List Word}
    (hwords : cursor.Passes (word :: words) stop) (hwords' : cursor'.Passes (word :: words) stop') :
    Follows extent Token.word next next stop stop' cursor cursor' := by
  intro token rest more hrun hmore _
  rw [next_run] at hrun
  cases hrun
  rw [next_run, hmore.unique hwords.advance]
  exact ⟨_, _, rfl, hwords.current_word_eq hwords', hwords'.advance⟩

theorem mirrors_next : Mirrors .inside Token.word next next := by
  apply mirrors_of_cases moves_next
  · intro _ _ _ hend
    cases hend.first
  · intro _ _ _ _ _ _ _ hwords hwords'
    exact follows_next hwords hwords'

/-- A token that another one must follow is not the last one of a value. -/
theorem mirrors_next_expect {kind : TokenKind} (hkind : kind ≠ .endOfInput)
    {behind behind' : Token → Token → Parser α}
    (hbehind : ∀ token token' last last' : Token, token.word = token'.word → last.word = last'.word →
      Mirrors extent erase (behind token last) (behind' token' last')) :
    Mirrors extent erase (next >>= fun token => expect kind >>= behind token)
      (next >>= fun token => expect kind >>= behind' token) := by
  apply mirrors_next.bind_inside
  · intro token
    apply (consumes_expect hkind).bind
    intro last
    exact (hbehind token token last last rfl rfl).moves
  · intro token token' hword
    apply (mirrors_expect hkind).bind
    intro last last' hlast
    exact hbehind token token' last last' hword hlast

/-- As many levels are open at both ends, so that one more is opened in both runs or in none. -/
theorem Mirrors.nested (hparser : Mirrors extent erase parser parser') (limit : Nat) :
    Mirrors extent erase (nested limit parser) (nested limit parser') := by
  refine ⟨hparser.moves.nested limit, ?_⟩
  intro stop stop' hends cursor cursor' words hwords hwords' value rest more hrun hmore hreach
  have hdepth := hends.depth_eq hwords hwords'
  rw [Parser.nested] at hrun
  rw [Parser.nested, ← hdepth]
  split at hrun
  · cases hrun
  · next hlimit =>
    rw [if_neg hlimit]
    cases hinner : parser { cursor with depth := cursor.depth + 1 } with
    | error fault last =>
      rw [hinner] at hrun
      cases hrun
    | ok found last =>
      rw [hinner] at hrun
      cases hrun
      obtain ⟨between, hbetween⟩ := hparser.moves.passes hinner
      have hlast : last.Passes more { stop with depth := cursor.depth + 1 } := by
        have hopened := hmore.withDepth (cursor.depth + 1)
        have hsame : last.depth = cursor.depth + 1 := hbetween.depth_eq
        rwa [← hsame] at hopened ⊢
      obtain ⟨value', last', hinner', hvalue, hlast'⟩ :=
        hparser.follows (hends.withDepth _) (hwords.withDepth _) (hwords'.withDepth _) hinner hlast
          fun hnil => ⟨(hreach hnil).first, (hreach hnil).second⟩
      rw [hinner']
      refine ⟨value', _, rfl, hvalue, ?_⟩
      have hclosed := hlast'.withDepth (last'.depth - 1)
      have hsame : last'.depth - 1 = stop'.depth := by
        rw [← hlast'.depth_eq, ← hends.depth, hwords.depth_eq]
        rfl
      exact hsame ▸ hclosed

/-! ## Loops -/

section Iterate

variable {keep : σ → τ} {step : σ → Parser (Option σ)}
  (hstep : ∀ state state', keep state = keep state' →
    Mirrors extent (Option.map keep) (step state) (step state'))
  (hprogress : ∀ state, Progresses (·.isSome) (step state))

include hstep hprogress

/-- Both loops have enough rounds, though not equally many. -/
theorem follows_iterateUpTo {stop stop' : Cursor} (hends : stop.EndsAlike stop')
    {rounds rounds' : Nat} {state state' : σ} {cursor cursor' : Cursor} {words : List Word}
    (hstate : keep state = keep state') (hrounds : cursor.ahead.length < rounds)
    (hrounds' : cursor'.ahead.length < rounds') (hwords : cursor.Passes words stop)
    (hwords' : cursor'.Passes words stop') :
    Follows extent keep (iterateUpTo step rounds state) (iterateUpTo step rounds' state') stop stop'
      cursor cursor' := by
  have hmoves := fun state => (hstep state state rfl).moves
  induction rounds generalizing rounds' state state' cursor cursor' words with
  | zero => exact absurd hrounds (Nat.not_lt_zero _)
  | succ rounds ih =>
    obtain ⟨rounds', rfl⟩ := Nat.exists_eq_succ_of_ne_zero (Nat.ne_zero_of_lt hrounds')
    apply ((hstep state state' hstate).follows hends hwords hwords').bind (.inl (List.Subset.refl _))
    · intro next?
      cases next? with
      | none => exact moves_pure state
      | some next => exact moves_iterateUpTo hmoves rounds next
    · intro next? next?' middle middle' between hnext hrun hrun' hmiddle hmiddle'
      cases next? with
      | none =>
        cases next?' with
        | none => exact (mirrors_pure hstate).follows hends hmiddle hmiddle'
        | some => cases hnext
      | some next =>
        cases next?' with
        | none => cases hnext
        | some next' =>
          have hlt := Nat.lt_of_lt_of_le (hprogress state hrun rfl) (Nat.le_of_lt_succ hrounds)
          have hlt' := Nat.lt_of_lt_of_le (hprogress state' hrun' rfl) (Nat.le_of_lt_succ hrounds')
          exact ih (Option.some.inj hnext) hlt hlt' hmiddle hmiddle'

theorem mirrors_iterate {state state' : σ} (hstate : keep state = keep state') :
    Mirrors extent keep (iterate step state) (iterate step state') := by
  refine ⟨moves_iterate (fun state => (hstep state state rfl).moves) state, ?_⟩
  intro stop stop' hends cursor cursor' words hwords hwords'
  exact follows_iterateUpTo hstep hprogress hends hstate (Nat.lt_succ_self _) (Nat.lt_succ_self _)
    hwords hwords'

end Iterate

theorem mirrors_separatedFrom {keep : σ → τ} {step : σ → Parser σ}
    (hstep : ∀ state state', keep state = keep state' →
      Mirrors extent keep (step state) (step state'))
    {separator : TokenKind} (hseparator : separator ∉ extent.kinds) (hend : separator ≠ .endOfInput)
    {state state' : σ} (hstate : keep state = keep state') :
    Mirrors extent keep (separatedFrom step separator state) (separatedFrom step separator state') := by
  apply (hstep state state' hstate).bind
  intro first first' hfirst
  apply mirrors_iterate _ _ hfirst
  · intro state state' hstate
    apply (mirrors_accept hseparator).bind_id
    intro found
    cases found with
    | false => exact mirrors_pure rfl
    | true =>
      apply (hstep state state' hstate).map
      intro next next' hnext
      exact congrArg some hnext
  · exact progresses_stepBehind? (fun state => (hstep state state rfl).moves) hend

section Unfold

variable (keep : σ → τ) {step : σ → Parser (α × Option σ)}
  (hstep : ∀ state state', keep state = keep state' →
    Mirrors extent (Prod.map erase (Option.map keep)) (step state) (step state'))
  (hprogress : ∀ state, Progresses (·.2.isSome) (step state))

include hstep hprogress

/-- Both loops take as many rounds, as long as each has more of them than tokens. -/
theorem follows_unfoldUpTo {stop stop' : Cursor} (hends : stop.EndsAlike stop')
    {rounds rounds' : Nat} {state state' : σ} {cursor cursor' : Cursor} {words : List Word}
    (hstate : keep state = keep state') (hrounds : cursor.ahead.length < rounds)
    (hrounds' : cursor'.ahead.length < rounds') (hwords : cursor.Passes words stop)
    (hwords' : cursor'.Passes words stop') :
    Follows extent (List.map erase) (unfoldUpTo step rounds state) (unfoldUpTo step rounds' state')
      stop stop' cursor cursor' := by
  have hmoves := fun state => (hstep state state rfl).moves
  induction rounds generalizing rounds' state state' cursor cursor' words with
  | zero => exact absurd hrounds (Nat.not_lt_zero _)
  | succ rounds ih =>
    obtain ⟨rounds', rfl⟩ := Nat.exists_eq_succ_of_ne_zero (Nat.ne_zero_of_lt hrounds')
    apply ((hstep state state' hstate).follows hends hwords hwords').bind (.inl (List.Subset.refl _))
    · rintro ⟨value, next?⟩
      cases next? with
      | none => exact moves_pure [value]
      | some next => exact (moves_unfoldUpTo hmoves rounds next).map _
    · rintro ⟨value, next?⟩ ⟨value', next?'⟩ middle middle' between hsame hrun hrun' hmiddle hmiddle'
      obtain ⟨hvalue, hnext⟩ := Prod.mk.inj hsame
      cases next? with
      | none =>
        cases next?' with
        | none =>
          have hvalues : List.map erase [value] = List.map erase [value'] :=
            congrArg (fun kept => [kept]) hvalue
          exact (mirrors_pure hvalues).follows hends hmiddle hmiddle'
        | some => cases hnext
      | some next =>
        cases next?' with
        | none => cases hnext
        | some next' =>
          have hlt := Nat.lt_of_lt_of_le (hprogress state hrun rfl) (Nat.le_of_lt_succ hrounds)
          have hlt' := Nat.lt_of_lt_of_le (hprogress state' hrun' rfl) (Nat.le_of_lt_succ hrounds')
          apply (ih (Option.some.inj hnext) hlt hlt' hmiddle hmiddle').bind
            (.inl (List.Subset.refl _)) fun _ => moves_pure _
          intro values values' last last' _ hvalues _ _ hlast hlast'
          have hcons : List.map erase (value :: values) = List.map erase (value' :: values') := by
            rw [List.map_cons, List.map_cons, hvalues]
            exact congrArg (· :: _) hvalue
          exact (mirrors_pure hcons).follows hends hlast hlast'

theorem mirrors_unfold {state state' : σ} (hstate : keep state = keep state') :
    Mirrors extent (List.map erase) (unfold step state) (unfold step state') := by
  refine ⟨moves_unfold (fun state => (hstep state state rfl).moves) state, ?_⟩
  intro stop stop' hends cursor cursor' words hwords hwords'
  exact follows_unfoldUpTo keep hstep hprogress hends hstate (Nat.lt_succ_self _) (Nat.lt_succ_self _)
    hwords hwords'

end Unfold

theorem Mirrors.separated (hitem : Mirrors extent erase parser parser) {separator : TokenKind}
    (hseparator : separator ∉ extent.kinds) (hend : separator ≠ .endOfInput) :
    Mirrors extent (List.map erase) (separated parser separator) (separated parser separator) := by
  apply mirrors_unfold (id : Unit → Unit)
  · intro _ _ _
    apply hitem.bind
    intro value value' hvalue
    apply (mirrors_accept hseparator).bind_id
    intro found
    exact mirrors_pure (Prod.ext hvalue rfl)
  · intro _
    apply hitem.moves.bind_progresses
    intro value
    exact (progresses_accept hend).bind_bool (moves_accept _) (moves_pure _)
      (progresses_pure Bool.false_ne_true)
  · rfl

/-- Values and states that are known as a whole. -/
theorem mirrors_unfold_id {step : σ → Parser (α × Option σ)}
    (hstep : ∀ state, Mirrors extent id (step state) (step state))
    (hprogress : ∀ state, Progresses (·.2.isSome) (step state)) (state : σ) :
    Mirrors extent id (unfold step state) (unfold step state) := by
  have hunfold : Mirrors extent (List.map id) (unfold step state) (unfold step state) := by
    apply mirrors_unfold id _ hprogress rfl
    intro state state' hstate
    rw [show state = state' from hstate]
    exact (hstep state').coarsen fun result result' hresult => congrArg _ hresult
  apply hunfold.coarsen
  intro values values' hvalues
  rwa [List.map_id, List.map_id] at hvalues

theorem Mirrors.separated_id (hitem : Mirrors extent id parser parser) {separator : TokenKind}
    (hseparator : separator ∉ extent.kinds) (hend : separator ≠ .endOfInput) :
    Mirrors extent id (Parser.separated parser separator) (Parser.separated parser separator) := by
  apply (hitem.separated hseparator hend).coarsen
  intro values values' hvalues
  rwa [List.map_id, List.map_id] at hvalues

/-- A chain goes on behind an operator, or else with an operand that consumes a token. -/
theorem mirrors_chain {operand : Parser α} {operator? : Parser (Option γ)}
    {combine : γ → α → α → Except Fault α} (hoperand : Mirrors extent erase operand operand)
    (hoperator : Mirrors extent id operator? operator?)
    (hprogress : Progresses (·.isSome) operator? ∨ Consumes operand)
    (hcombine : ∀ operator {left left' right right'}, erase left = erase left' →
      erase right = erase right' → ∀ value, combine operator left right = .ok value →
        ∃ value', combine operator left' right' = .ok value' ∧ erase value = erase value') :
    Mirrors extent erase (chain operand operator? combine) (chain operand operator? combine) := by
  have hmoves : ∀ operator left, Moves (do
      return some (← ofExcept (combine operator left (← operand)))) := by
    intro operator left
    apply hoperand.moves.bind
    intro right
    exact (moves_ofExcept _).map some
  apply hoperand.bind
  intro first first' hfirst
  apply mirrors_iterate _ _ hfirst
  · intro left left' hleft
    apply hoperator.bind_id
    intro found
    cases found with
    | none => exact mirrors_pure rfl
    | some operator =>
      apply hoperand.bind
      intro right right' hright
      apply (mirrors_ofExcept (hcombine operator hleft hright)).map
      intro value value' hvalue
      exact congrArg some hvalue
  · intro left
    rcases hprogress with hfound | hconsumes
    · exact hfound.bind_option hoperator.moves (fun operator => hmoves operator left)
        (progresses_pure Bool.false_ne_true)
    · apply hoperator.moves.bind_progresses
      intro found
      cases found with
      | none => exact progresses_pure Bool.false_ne_true
      | some operator =>
        exact (hconsumes.bind fun right => (moves_ofExcept _).map some).progresses

/-! ## Values of their own -/

/-- A value that is parsed from words before one end is parsed from these words before each. -/
theorem Mirrors.reads {parser : Parser α} (hparser : Mirrors .value id parser parser)
    {cursor stop : Cursor} {value : α} {words : List Word} (hrun : parser cursor = .ok value stop)
    (hwords : cursor.Passes words stop) (hends : stop.current.word.EndsValue) :
    Reads parser cursor.depth words Word.EndsValue True (· = value) := by
  intro cursor' stop' hdepth hwords' hends'
  have halike : stop.EndsAlike stop' := by
    refine ⟨⟨List.mem_cons_of_mem _ hends, List.mem_cons_of_mem _ hends'⟩, ?_⟩
    rw [hwords.depth_eq, hwords'.depth_eq, hdepth]
  obtain ⟨value', rest', hrun', hvalue, hrest⟩ :=
    hparser.follows halike hwords hwords' hrun (.nil stop) fun _ => ⟨hends, hends'⟩
  rw [hrest.eq_of_nil] at hrun'
  exact ⟨fun _ => ⟨value', hrun', hvalue.symm⟩, fun h => absurd trivial h⟩

end Parser

end ODataOptions
