import ODataOptions.Parser.Basic

/-!
# Runs of parsers

What each elementary parser does at a cursor, as one equation each, and how a run of a sequence comes
apart.
-/

namespace ODataOptions.Parser

variable {α β σ : Type} (cursor : Cursor)

theorem pure_run (value : α) : (pure value : Parser α) cursor = .ok value cursor := rfl

theorem get_run : (get : Parser Cursor) cursor = .ok cursor cursor := rfl

theorem bind_run (parser : Parser α) (next : α → Parser β) :
    (parser >>= next) cursor =
      match parser cursor with
      | .ok value rest => next value rest
      | .error fault rest => .error fault rest := by
  cases hrun : parser cursor <;> simp [Bind.bind, EStateM.bind, hrun]

theorem map_run (f : α → β) (parser : Parser α) :
    (f <$> parser) cursor =
      match parser cursor with
      | .ok value rest => .ok (f value) rest
      | .error fault rest => .error fault rest := by
  rw [map_eq_pure_bind, bind_run]
  rfl

theorem ofExcept_run (result : Except Fault α) :
    (ofExcept result : Parser α) cursor =
      match result with
      | .ok value => .ok value cursor
      | .error fault => .error fault cursor := by
  cases result <;> rfl

theorem current_run : current cursor = .ok cursor.current cursor := rfl

theorem takeIf_run (test : Token → Bool) :
    takeIf test cursor =
      if test cursor.current then .ok (some cursor.current) cursor.advance
      else .ok none cursor := by
  unfold takeIf
  split <;> rfl

theorem next_run : next cursor = .ok cursor.current cursor.advance := by
  rw [next, bind_run, current_run]
  change ((takeIf _ >>= _) cursor) = _
  rw [bind_run, takeIf_run]
  rfl

theorem accept_run (kind : TokenKind) :
    accept kind cursor =
      if cursor.current.isA kind then .ok true cursor.advance else .ok false cursor := by
  rw [accept, bind_run, take?, takeIf_run]
  cases cursor.current.isA kind <;> rfl

theorem acceptWord_run (word : String) :
    acceptWord word cursor =
      if cursor.current.isWord word then .ok true cursor.advance else .ok false cursor := by
  rw [acceptWord, bind_run, takeIf_run]
  cases cursor.current.isWord word <;> rfl

theorem failHere_run (problem : Problem) :
    (failHere problem : Parser α) cursor =
      .error { problem, span := cursor.current.span } cursor := rfl

theorem expect_run (kind : TokenKind) :
    expect kind cursor =
      if cursor.current.isA kind then .ok cursor.current cursor.advance
      else unexpected kind.describe cursor := by
  rw [expect, bind_run, take?, takeIf_run]
  cases cursor.current.isA kind <;> rfl

theorem bind_eq_ok_iff {parser : Parser α} {next : α → Parser β} {cursor rest : Cursor}
    {value : β} :
    (parser >>= next) cursor = .ok value rest ↔
      ∃ first middle, parser cursor = .ok first middle ∧ next first middle = .ok value rest := by
  rw [bind_run]
  cases parser cursor with
  | error fault middle => simp
  | ok first middle =>
    constructor
    · intro hsecond
      exact ⟨first, middle, rfl, hsecond⟩
    · rintro ⟨_, _, hfirst, hsecond⟩
      cases hfirst
      exact hsecond

/-- An unfolding begins with the value of its first step. -/
theorem head?_unfold {step : σ → Parser (α × Option σ)} {state : σ} {cursor rest : Cursor}
    {values : List α} (hrun : unfold step state cursor = .ok values rest) :
    ∃ result middle, step state cursor = .ok result middle ∧ values.head? = some result.1 := by
  change unfoldUpTo step (cursor.ahead.length + 1) state cursor = .ok values rest at hrun
  obtain ⟨⟨value, next?⟩, middle, hstep, hrest⟩ := bind_eq_ok_iff.mp hrun
  refine ⟨(value, next?), middle, hstep, ?_⟩
  cases next? with
  | none =>
    cases hrest
    rfl
  | some next =>
    obtain ⟨values, _, _, hvalues⟩ := bind_eq_ok_iff.mp hrest
    cases hvalues
    rfl

end ODataOptions.Parser
