import ODataOptions.Proofs.Parser.Mirrors
import ODataOptions.Proofs.Search.Completeness

/-!
# Searches do not depend on what follows

A search that ends before a semicolon, a closing parenthesis or the end of the input is parsed alike
before each of them.  Operands may follow one another without a word between them, but none begins with
these tokens.
-/

namespace ODataOptions

open ODataOptions.Parser

/-- Whether an operand of a search can begin with the word. -/
def Word.startsSearchOperand (word : Word) : Bool :=
  Token.startsSearchOperand ⟨word.kind, word.text, default⟩

theorem Token.startsSearchOperand_word (token : Token) :
    token.word.startsSearchOperand = token.startsSearchOperand := rfl

theorem Word.EndsValue.isSearchWord_eq_false {word : Word} (hends : word.EndsValue) :
    word.isSearchWord = false := by
  have hstarts := (SearchExpression.Grammar.ends_of_endsValue hends ⟨word.kind, word.text, default⟩ rfl).2
  simp only [Token.startsSearchOperand, Bool.or_eq_false_iff] at hstarts
  exact hstarts.1.1.1

namespace SearchExpression

namespace Grammar

/-- The parts that a grammar refers back to do not depend on what follows. -/
structure Mirrored (inner : Grammar) : Prop where
  whole : Mirrors .value id inner.whole inner.whole
  operand : Mirrors .value id inner.operand inner.operand

/-- Whether another operand begins is told by the next word alone. -/
theorem mirrors_conjunctionSign : Mirrors .value id conjunctionSign conjunctionSign := by
  apply (mirrors_acceptWord "AND").bind_bool
  · exact mirrors_pure rfl
  · apply mirrors_current_test Word.startsSearchOperand
    · intro word hends
      exact (ends_of_endsValue hends ⟨word.kind, word.text, default⟩ rfl).2
    · intro token token' hstarts
      rw [Token.startsSearchOperand_word, Token.startsSearchOperand_word] at hstarts
      rw [hstarts]
      exact mirrors_pure rfl

theorem mirrors_disjunctionSign : Mirrors .value id disjunctionSign disjunctionSign := by
  apply (mirrors_acceptWord "OR").bind_id
  intro _
  exact mirrors_pure rfl

theorem progresses_disjunctionSign : Progresses (·.isSome) disjunctionSign := by
  exact (progresses_acceptWord "OR").bind_bool (moves_acceptWord _) (moves_pure _)
    (progresses_pure Bool.false_ne_true)

namespace Mirrored

variable {limits : Limits} {inner : Grammar} (hinner : inner.Mirrored)

include hinner

theorem group : Mirrors .value id (group inner) (group inner) := by
  apply (mirrors_expect (by decide)).bind
  intro _ _ _
  apply hinner.whole.bind_id
  intro content
  exact (mirrors_expect (by decide)).map fun _ _ _ => rfl

theorem primary : Mirrors .value id (primary limits inner) (primary limits inner) := by
  have hword : Mirrors .value (Option.map Token.word) (takeIf Token.isSearchWord)
      (takeIf Token.isSearchWord) := by
    apply mirrors_takeIf
    · intro token token' hword
      rw [← Token.isSearchWord_word, hword, Token.isSearchWord_word]
    · intro token hends
      rw [← Token.isSearchWord_word, Word.EndsValue.isSearchWord_eq_false hends]
  apply mirrors_current_test (·.isA .openParen) fun word hends => hends.isA_eq_false (by decide)
  intro token token' hopen
  rw [Token.isA_word, Token.isA_word] at hopen
  rw [hopen]
  split
  · exact hinner.group.nested _
  · apply (mirrors_take? (by decide)).bind_token
    · intro quoted quoted' hquoted
      have htext : quoted.text = quoted'.text := congrArg Word.text hquoted
      dsimp only
      rw [phraseText, phraseText, htext]
      exact mirrors_pure rfl
    · apply hword.bind_token _ (mirrors_unexpected _)
      intro word word' hsame
      have htext : word.text = word'.text := congrArg Word.text hsame
      dsimp only
      rw [htext]
      exact mirrors_pure rfl

theorem negated : Mirrors .value id (negated inner) (negated inner) := by
  apply (mirrors_expect (by decide)).bind
  intro _ _ _
  apply hinner.operand.bind_id
  intro _
  exact mirrors_pure rfl

theorem negation : Mirrors .value id (negation limits inner) (negation limits inner) := by
  apply mirrors_current_test (·.isWord "NOT") fun word hends => hends.isWord_eq_false "NOT"
  intro token token' hnot
  rw [Token.isWord_word, Token.isWord_word] at hnot
  rw [hnot]
  split
  · exact hinner.negated.nested _
  · exact hinner.primary

theorem consumes_primary : Consumes (Grammar.primary limits inner) := by
  have hquoted : Progresses (·.isSome) (take? .quotedPhrase) :=
    progresses_takeIf fun _ => Token.kind_ne_endOfInput_of_isA (by decide)
  have hword : Progresses (·.isSome) (takeIf Token.isSearchWord) :=
    progresses_takeIf fun _ => Token.kind_ne_endOfInput_of_isSearchWord
  apply moves_current.bind_consumes
  intro token
  split
  · apply Consumes.nested
    apply (consumes_expect (by decide)).bind
    intro _
    apply hinner.whole.moves.bind
    intro _
    exact (moves_expect _).map _
  · apply consumes_of_progresses
    apply hquoted.bind_option (moves_takeIf _)
    · exact fun quoted => moves_pure _
    · exact hword.bind_option (moves_takeIf _) (fun word => moves_pure _) (progresses_unexpected _)

/-- An operand is more than nothing, so a search without words between its operands comes to its end. -/
theorem consumes_negation : Consumes (Grammar.negation limits inner) := by
  apply moves_current.bind_consumes
  intro token
  split
  · apply Consumes.nested
    apply (consumes_expect (by decide)).bind
    intro _
    exact hinner.operand.moves.map _
  · exact hinner.consumes_primary

theorem conjunction : Mirrors .value id (conjunction limits inner) (conjunction limits inner) := by
  apply mirrors_chain hinner.negation mirrors_conjunctionSign (.inr hinner.consumes_negation)
  rintro _ left left' right right' hleft hright value ⟨⟩
  exact ⟨_, rfl, congrArg₂ SearchExpression.and hleft hright⟩

theorem disjunction : Mirrors .value id (disjunction limits inner) (disjunction limits inner) := by
  apply mirrors_chain hinner.conjunction mirrors_disjunctionSign (.inl progresses_disjunctionSign)
  rintro _ left left' right right' hleft hright value ⟨⟩
  exact ⟨_, rfl, congrArg₂ SearchExpression.or hleft hright⟩

omit hinner in
theorem ofLevels (limits : Limits) (levels : Nat) : (ofLevels limits levels).Mirrored := by
  induction levels with
  | zero => exact ⟨mirrors_failHere _, mirrors_failHere _⟩
  | succ levels ih => exact ⟨ih.disjunction, ih.negation⟩

end Mirrored

end Grammar

theorem mirrors_parse (limits : Limits) :
    Mirrors .value id (SearchExpression.parse limits) (SearchExpression.parse limits) :=
  (Grammar.Mirrored.ofLevels limits _).whole

end SearchExpression

end ODataOptions
