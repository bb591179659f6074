import ODataOptions.Proofs.Parser.Tracks
import ODataOptions.Proofs.Search.Spelling

/-!
# Searches in two runs side by side

A search is the same in two runs over the same words.
-/

namespace ODataOptions

open ODataOptions.Parser

variable {C : Comparison} (hwords : C.Respelled)

namespace Token

variable {token token' : Token}

/-- No keyword is a word to search for. -/
theorem isKeyword_of_isSearchWord (hword : token.isSearchWord = true) :
    token.kind.isKeyword = false := by
  unfold isSearchWord at hword
  cases hkind : token.kind with
  | option | ref =>
    rw [hkind] at hword
    cases hword
  | _ => rfl

theorem isSearchWord_eq (hrespells : token.word.Respells token'.word) :
    token.isSearchWord = token'.isSearchWord := by
  rcases hrespells.eq_or_isKeyword with hsame | hkeyword
  · rw [← isSearchWord_word, hsame, isSearchWord_word]
  · have hkeyword' : token'.kind.isKeyword = true := by
      rw [← word_kind, ← hrespells.kind, hkeyword]
    have hnone : ∀ {token : Token}, token.kind.isKeyword = true → token.isSearchWord = false :=
      fun hkeyword => Bool.eq_false_iff.mpr fun hword =>
        Bool.noConfusion (hkeyword.symm.trans (isKeyword_of_isSearchWord hword))
    rw [hnone hkeyword, hnone hkeyword']

theorem startsSearchOperand_eq (hrespells : token.word.Respells token'.word) :
    token.startsSearchOperand = token'.startsSearchOperand := by
  have hisA : ∀ kind, token.isA kind = token'.isA kind := hrespells.isA_eq
  have hisWord : token.isWord "NOT" = token'.isWord "NOT" := hrespells.isWord_eq "NOT"
  rw [startsSearchOperand, startsSearchOperand, isSearchWord_eq hrespells, hisWord, hisA, hisA]

end Token

namespace SearchExpression

namespace Grammar

include hwords in
theorem tracks_conjunctionSign : C.Tracks Eq conjunctionSign conjunctionSign := by
  apply (hwords.acceptWord "AND").bind_eq
  intro found
  refine .ite .rfl (.pure rfl) ?_
  apply Comparison.Tracks.current.bind
  intro token token' htoken
  refine .pure ?_
  rw [Token.startsSearchOperand_eq (hwords htoken)]

include hwords in
theorem tracks_disjunctionSign : C.Tracks Eq disjunctionSign disjunctionSign := by
  apply (hwords.acceptWord "OR").bind_eq
  intro _
  exact .pure rfl

/-- The parts that a grammar refers back to have the same values in both runs. -/
structure Tracked (C : Comparison) (inner : Grammar) : Prop where
  whole : C.Tracks Eq inner.whole inner.whole
  operand : C.Tracks Eq inner.operand inner.operand

namespace Tracked

variable {limits : Limits} {inner : Grammar} (hinner : inner.Tracked C)

include hwords hinner

theorem group : C.Tracks Eq (group inner) (group inner) := by
  apply (hwords.expect_mark .openParen).bind
  intro _ _ _
  apply hinner.whole.bind_eq
  intro _
  apply (hwords.expect_mark .closeParen).map
  intro _ _ _
  exact rfl

theorem primary : C.Tracks Eq (primary limits inner) (primary limits inner) := by
  apply Comparison.Tracks.current.bind
  intro token token' htoken
  refine .ite (by rw [hwords.sameIsA _ _ _ htoken]) ((hinner.group hwords).nested _) ?_
  apply (hwords.take? .quotedPhrase rfl).bind
  intro phrase? phrase?' hphrase
  cases hphrase with
  | some hphrase => exact .pure (by rw [phraseText, phraseText, hphrase.2])
  | none =>
    apply (Comparison.Tracks.takeIf fun _ _ htoken => Token.isSearchWord_eq (hwords htoken)).bind
    intro term? term?' hterm
    cases hterm with
    | none => exact .unexpected _
    | some hterm =>
      have hsame := (hwords hterm.1).eq_of_plain (Token.isKeyword_of_isSearchWord hterm.2)
      exact .pure (congrArg SearchExpression.term (congrArg Word.text hsame))

theorem negated : C.Tracks Eq (negated inner) (negated inner) := by
  apply (hwords.expect_mark .identifier).bind
  intro _ _ _
  apply hinner.operand.bind_eq
  intro _
  exact .pure rfl

theorem negation : C.Tracks Eq (negation limits inner) (negation limits inner) := by
  apply Comparison.Tracks.current.bind
  intro _ _ htoken
  exact .ite (by rw [hwords.sameIsWord _ _ _ htoken]) ((hinner.negated hwords).nested _)
    (hinner.primary hwords)

theorem disjunction : C.Tracks Eq (disjunction limits inner) (disjunction limits inner) := by
  have hconjunction : C.Tracks Eq (conjunction limits inner) (conjunction limits inner) :=
    .chain (hinner.negation hwords) (tracks_conjunctionSign hwords)
      (by rintro _ left _ right _ rfl rfl; exact .ok rfl)
  exact .chain hconjunction (tracks_disjunctionSign hwords)
    (by rintro _ left _ right _ rfl rfl; exact .ok rfl)

end Tracked

include hwords in
theorem tracked_ofLevels (limits : Limits) (levels : Nat) : (ofLevels limits levels).Tracked C := by
  induction levels with
  | zero => exact ⟨.failHere rfl, .failHere rfl⟩
  | succ levels ih => exact ⟨ih.disjunction hwords, ih.negation hwords⟩

end Grammar

include hwords in
theorem tracks_parse (limits : Limits) : C.Tracks Eq (parse limits) (parse limits) :=
  (Grammar.tracked_ofLevels hwords limits _).whole

end SearchExpression

end ODataOptions
