import ODataOptions.Proofs.Expand.Mirrors
import ODataOptions.Proofs.Parser.Stretches

/-!
# The discipline of the cursor

One cursor is shared by all parsers.  Whoever uses it through its operations and through parsers of values,
with as many levels opened and as many faults met on the way as there may be, leaves it between the same
tokens, not before where it was, not behind the end of the input, and with as many levels open as before.
An operation that looks for one token takes that token or leaves the cursor where it is.
-/

namespace ODataOptions

open ODataOptions.Parser

/-! ## Routines -/

namespace Parser

variable {α β : Type}

/-- Runs a parser and hands on what became of it, value or fault. -/
def attempt (parser : Parser α) : Parser (Except Fault α) := fun cursor =>
  match parser cursor with
  | .ok value rest => .ok (.ok value) rest
  | .error fault rest => .ok (.error fault) rest

/-- What can be made of the operations on a cursor and of whole parsers: a routine looks at the cursor,
decides by all that it has seen what to do next, opens levels around other routines, and fails, or goes on
behind the fault of another routine. -/
inductive Routine : {α : Type} → Parser α → Prop
  | pure {α : Type} (value : α) : Routine (Pure.pure value)
  | throw {α : Type} (fault : Fault) : Routine (MonadExcept.throw fault : Parser α)
  | bind {α β : Type} {parser : Parser α} {next : α → Parser β} (hparser : Routine parser)
      (hnext : ∀ value, Routine (next value)) : Routine (parser >>= next)
  | attempt {α : Type} {parser : Parser α} (hparser : Routine parser) : Routine parser.attempt
  | nested {α : Type} {parser : Parser α} (limit : Nat) (hparser : Routine parser) :
      Routine (parser.nested limit)
  | look : Routine get
  | next : Routine next
  | accept (kind : TokenKind) : Routine (accept kind)
  | acceptWord (word : String) : Routine (acceptWord word)
  | expect (kind : TokenKind) : Routine (expect kind)
  | wholeNumber (option : String) (zeroAllowed : Bool) : Routine (wholeNumber option zeroAllowed)
  | truthValue : Routine truthValue
  | levels : Routine Levels.parse
  | expression (scope : Scope) (owner : StructuredType) : Routine (Expression.parse scope owner)
  | filter (scope : Scope) (owner : StructuredType) : Routine (Expression.parseFilter scope owner)
  | orderBy (scope : Scope) (owner : StructuredType) : Routine (OrderBy.parse scope owner)
  | search (limits : Limits) : Routine (SearchExpression.parse limits)
  | select (schema : Schema) (owner : StructuredType) : Routine (Select.parse schema owner)
  | expand (scope : Scope) (levels : Nat) (owner : StructuredType) :
      Routine (Expand.parseWithin scope levels owner)
  | options (scope : Scope) (owner : StructuredType) (context : OptionContext) :
      Routine (Expand.parseOptions scope owner context)

theorem Moves.attempt {parser : Parser α} (hparser : Moves parser) : Moves parser.attempt := by
  intro cursor
  have hpasses := hparser cursor
  rw [final] at hpasses ⊢
  rw [Parser.attempt]
  cases hrun : parser cursor with
  | ok value rest =>
    rw [hrun] at hpasses
    exact hpasses
  | error fault rest =>
    rw [hrun] at hpasses
    exact hpasses

/-- Whatever a routine is made of, it passes words and leaves no level open. -/
theorem Routine.moves {parser : Parser α} (hroutine : Routine parser) : Moves parser := by
  induction hroutine with
  | pure value => exact moves_pure value
  | throw fault => exact moves_throw fault
  | bind _ _ hparser hnext => exact hparser.bind hnext
  | attempt _ hparser => exact hparser.attempt
  | nested limit _ hparser => exact hparser.nested limit
  | look => exact moves_get
  | next => exact moves_next
  | accept kind => exact moves_accept kind
  | acceptWord word => exact moves_acceptWord word
  | expect kind => exact moves_expect kind
  | wholeNumber option zeroAllowed => exact (mirrors_wholeNumber option zeroAllowed).moves
  | truthValue => exact mirrors_truthValue.moves
  | levels => exact Levels.mirrors_parse.moves
  | expression scope owner => exact (Expression.mirrors_parse scope owner).moves
  | filter scope owner => exact (Expression.mirrors_parseFilter scope owner).moves
  | orderBy scope owner => exact (OrderBy.mirrors_parse scope owner).moves
  | search limits => exact (SearchExpression.mirrors_parse limits).moves
  | select schema owner => exact (Select.mirrors_parse schema owner).moves
  | expand scope levels owner => exact (Expand.mirrors_parseWithin scope levels owner).moves
  | options scope owner context =>
    have hvalue := SystemOption.mirrors_parseValue scope
      (Expand.mirrors_parseWithin scope (scope.limits.expandDepth - 1)) owner
    exact (OptionSet.mirrors_parse hvalue context).moves

end Parser

/-! ## Where routines leave the cursor -/

namespace Cursor

variable {before middle behind : Cursor}

/-- The second cursor stands between the same tokens, not before the first one, with no end of the input
between them, and as many levels are open. -/
structure LeadsTo (before behind : Cursor) : Prop extends Reaches before behind where
  position_le_length : behind.position ≤ behind.tokens.length
  kind_ne : ∀ index token, before.position ≤ index → index < behind.position →
    before.tokens[index]? = some token → token.kind ≠ .endOfInput
  depth_eq : behind.depth = before.depth

theorem LeadsTo.trans (hfirst : before.LeadsTo middle) (hsecond : middle.LeadsTo behind) :
    before.LeadsTo behind := by
  refine ⟨hfirst.toReaches.trans hsecond.toReaches, hsecond.position_le_length, ?_,
    hsecond.depth_eq.trans hfirst.depth_eq⟩
  intro index token hfrom hto htoken
  rcases Nat.lt_or_ge index middle.position with hlt | hge
  · exact hfirst.kind_ne index token hfrom hlt htoken
  · apply hsecond.kind_ne index token hge hto
    rw [hfirst.tokens_eq, htoken]

/-- The words between two cursors are those of the tokens there, and none of them is the end. -/
theorem Passes.leadsTo {words : List Word} (hpasses : before.Passes words behind) :
    before.LeadsTo behind := by
  induction hpasses with
  | nil cursor =>
    refine ⟨.refl cursor, ?_, ?_, rfl⟩
    · rw [length_tokens]
      exact Nat.le_add_right _ _
    · intro index token hfrom hto
      exact absurd hfrom (Nat.not_le_of_lt hto)
  | @cons cursor rest word words hword hkind hrest ih =>
    have hcurrent : cursor.current.kind ≠ .endOfInput := by
      rwa [← hword, Token.word_kind] at hkind
    refine ⟨(reaches_advance cursor).trans ih.toReaches, ih.position_le_length, ?_, ?_⟩
    · intro index token hfrom hto htoken
      rcases Nat.eq_or_lt_of_le hfrom with rfl | hlt
      · rw [getElem?_position hcurrent] at htoken
        cases htoken
        exact hcurrent
      · apply ih.kind_ne index token _ hto
        · rw [tokens_advance, htoken]
        · rwa [position_advance hcurrent]
    · rw [ih.depth_eq, depth_advance]

end Cursor

/-- A routine that is run for what it does to the cursor. -/
structure Call where
  {Value : Type}
  parser : Parser Value
  routine : Routine parser

namespace Call

/-- Where the call leaves the cursor, whether it fails or not. -/
def after (cursor : Cursor) (call : Call) : Cursor := final call.parser cursor

/-- The cursors before, between and behind calls that are made one after another. -/
def visited (cursor : Cursor) (calls : List Call) : List Cursor := calls.scanl after cursor

/-- No call leaves the cursor before where it started, or with other levels open. -/
theorem leadsTo_after (cursor : Cursor) (call : Call) : cursor.LeadsTo (call.after cursor) := by
  obtain ⟨words, hpasses⟩ := call.routine.moves cursor
  exact hpasses.leadsTo

/-- Every cursor that is visited comes behind the one that the calls start from. -/
theorem leadsTo_of_mem_visited {cursor : Cursor} {calls : List Call} :
    ∀ behind ∈ visited cursor calls, cursor.LeadsTo behind := by
  induction calls generalizing cursor with
  | nil =>
    intro behind hmem
    rw [visited, List.scanl_nil, List.mem_singleton] at hmem
    rw [hmem]
    exact (Cursor.Passes.nil cursor).leadsTo
  | cons call calls ih =>
    intro behind hmem
    rw [visited, List.scanl_cons, List.mem_cons] at hmem
    rcases hmem with rfl | hmem
    · exact (Cursor.Passes.nil behind).leadsTo
    · exact (leadsTo_after cursor call).trans (ih behind hmem)

/-- In a history of calls, each cursor leads to all later ones. -/
theorem visited_pairwise (cursor : Cursor) (calls : List Call) :
    (visited cursor calls).Pairwise Cursor.LeadsTo := by
  induction calls generalizing cursor with
  | nil =>
    rw [visited, List.scanl_nil]
    exact List.pairwise_singleton _ _
  | cons call calls ih =>
    rw [visited, List.scanl_cons, List.pairwise_cons]
    refine ⟨?_, ih _⟩
    intro behind hmem
    exact (leadsTo_after cursor call).trans (leadsTo_of_mem_visited behind hmem)

end Call

/-! ## Operations on one token -/

namespace Parser

variable {α : Type} {test : Token → Bool} {parser : Parser α}

/-- The parser looks for a current token that passes the test.  Where there is one, it succeeds and takes at
most this token, and where there is none, the cursor stays as it is. -/
structure LooksFor (test : Token → Bool) (parser : Parser α) : Prop where
  found : ∀ cursor : Cursor, test cursor.current = true → ∃ value rest,
    parser cursor = .ok value rest ∧ rest.depth = cursor.depth ∧
      cursor.position ≤ rest.position ∧ rest.position ≤ cursor.position + 1
  missing : ∀ cursor : Cursor, test cursor.current = false → final parser cursor = cursor

theorem position_advance_le (cursor : Cursor) :
    cursor.position ≤ cursor.advance.position ∧ cursor.advance.position ≤ cursor.position + 1 := by
  by_cases hend : cursor.current.kind = .endOfInput
  · rw [Cursor.advance_of_end hend]
    exact ⟨Nat.le_refl _, Nat.le_succ _⟩
  · rw [Cursor.position_advance hend]
    exact ⟨Nat.le_succ _, Nat.le_refl _⟩

/-- It is enough to know the two ways that a run can go. -/
theorem looksFor_of_run
    (hfound : ∀ cursor, test cursor.current = true → ∃ value, parser cursor = .ok value cursor.advance)
    (hmissing : ∀ cursor, test cursor.current = false → final parser cursor = cursor) :
    LooksFor test parser := by
  refine ⟨?_, hmissing⟩
  intro cursor htest
  obtain ⟨value, hrun⟩ := hfound cursor htest
  exact ⟨value, cursor.advance, hrun, cursor.depth_advance, position_advance_le cursor⟩

theorem looksFor_accept (kind : TokenKind) : LooksFor (·.isA kind) (accept kind) := by
  apply looksFor_of_run
  · intro cursor htest
    exact ⟨true, by rw [accept_run, if_pos htest]⟩
  · intro cursor htest
    rw [final, accept_run, if_neg (Bool.eq_false_iff.mp htest)]

theorem looksFor_acceptWord (word : String) : LooksFor (·.isWord word) (acceptWord word) := by
  apply looksFor_of_run
  · intro cursor htest
    exact ⟨true, by rw [acceptWord_run, if_pos htest]⟩
  · intro cursor htest
    rw [final, acceptWord_run, if_neg (Bool.eq_false_iff.mp htest)]

/-- An expected token that is missing consumes nothing. -/
theorem looksFor_expect (kind : TokenKind) : LooksFor (·.isA kind) (expect kind) := by
  apply looksFor_of_run
  · intro cursor htest
    exact ⟨cursor.current, by rw [expect_run, if_pos htest]⟩
  · intro cursor htest
    rw [final, expect_run, if_neg (Bool.eq_false_iff.mp htest)]
    rfl

/-- Looking at the current token is not moving. -/
theorem looksFor_current (test : Token → Bool) :
    LooksFor test (return test (← current) : Parser Bool) :=
  ⟨fun cursor _ => ⟨test cursor.current, cursor, rfl, rfl, Nat.le_refl _, Nat.le_succ _⟩,
    fun _ _ => rfl⟩

end Parser

/-- Of the cursors between any calls, successful or failing, each leads to all later ones; and an operation
that looks for a token takes no other one and no more. -/
theorem cursor_discipline :
    (∀ (cursor : Cursor) (calls : List Call), (Call.visited cursor calls).Pairwise Cursor.LeadsTo) ∧
    (∀ kind, LooksFor (·.isA kind) (return (← current).isA kind : Parser Bool)) ∧
    (∀ kind, LooksFor (·.isA kind) (accept kind)) ∧
    (∀ word, LooksFor (·.isWord word) (acceptWord word)) ∧
    (∀ kind, LooksFor (·.isA kind) (expect kind)) :=
  ⟨Call.visited_pairwise, fun kind => looksFor_current (·.isA kind), looksFor_accept,
    looksFor_acceptWord, looksFor_expect⟩

end ODataOptions
