import ODataOptions.Proofs.Parser.Yields
import ODataOptions.Search.Parser

/-!
# Search expressions spelled from a vocabulary

Each term of a search is the text of a word that can be searched for.
-/

namespace ODataOptions

open ODataOptions.Parser

/-- Whether a word can be searched for. -/
def Word.isSearchWord (word : Word) : Bool :=
  Token.isSearchWord ⟨word.kind, word.text, default⟩

theorem Token.isSearchWord_word (token : Token) :
    token.word.isSearchWord = token.isSearchWord := rfl

theorem Token.kind_ne_endOfInput_of_isSearchWord {token : Token}
    (hsearch : token.isSearchWord = true) : token.kind ≠ .endOfInput := by
  intro hend
  simp [isSearchWord, hend] at hsearch

namespace SearchExpression

/-- Every term is a word of the vocabulary that can be searched for. -/
def Spelled (words : Vocabulary) : SearchExpression → Prop
  | .term text => ∃ kind, words ⟨kind, text⟩ ∧ Word.isSearchWord ⟨kind, text⟩ = true
  | .phrase _ => True
  | .not operand => Spelled words operand
  | .and left right => Spelled words left ∧ Spelled words right
  | .or left right => Spelled words left ∧ Spelled words right

namespace Grammar

/-- The parts that a grammar refers back to yield spelled expressions. -/
structure Sound (words : Vocabulary) (inner : Grammar) : Prop where
  whole : Yields words inner.whole (Spelled words)
  operand : Yields words inner.operand (Spelled words)

variable {words : Vocabulary} {limits : Limits} {inner : Grammar}

theorem yields_word :
    Yields words (takeIf Token.isSearchWord) fun token? => ∀ token ∈ token?,
      Spelled words (.term token.text) := by
  apply (yields_takeIf _).mono
  intro token? htoken token hmem
  obtain ⟨hsearch, hword⟩ := htoken token hmem
  exact ⟨token.kind, hword (Token.kind_ne_endOfInput_of_isSearchWord hsearch), hsearch⟩

theorem Sound.primary (hinner : inner.Sound words) :
    Yields words (primary limits inner) (Spelled words) := by
  apply yields_current.bind
  intro token _
  split
  · refine Yields.nested ?_ _
    apply (yields_expect (by decide)).bind
    intro _ _
    apply hinner.whole.bind
    intro _ hcontent
    exact (yields_expect (by decide)).map fun _ _ => hcontent
  · apply (yields_take? (by decide)).bind
    intro phrase? _
    cases phrase? with
    | some phrase => exact .pure trivial
    | none =>
      apply yields_word.bind
      intro word? hword
      cases word? with
      | some word => exact .pure (hword word rfl)
      | none => exact yields_unexpected _

theorem Sound.negation (hinner : inner.Sound words) :
    Yields words (negation limits inner) (Spelled words) := by
  apply yields_current.bind
  intro token _
  split
  · refine Yields.nested ?_ _
    apply (yields_expect (by decide)).bind
    intro _ _
    apply hinner.operand.map
    intro _ hoperand
    exact hoperand
  · exact hinner.primary

theorem yields_conjunctionSign : Yields words conjunctionSign fun _ => True := by
  apply (yields_acceptWord _).bind
  intro found _
  cases found with
  | true => exact .pure trivial
  | false => exact yields_current.map fun _ _ => trivial

theorem Sound.disjunction (hinner : inner.Sound words) :
    Yields words (disjunction limits inner) (Spelled words) := by
  have hconjunction : Yields words (conjunction limits inner) (Spelled words) :=
    hinner.negation.chain yields_conjunctionSign fun _ left right value hleft hright hvalue => by
      cases hvalue
      exact ⟨hleft, hright⟩
  apply hconjunction.chain ((yields_acceptWord _).map fun _ _ => trivial)
  intro _ left right value hleft hright hvalue
  cases hvalue
  exact ⟨hleft, hright⟩

theorem sound_ofLevels (words : Vocabulary) (limits : Limits) (levels : Nat) :
    (ofLevels limits levels).Sound words := by
  induction levels with
  | zero => exact ⟨yields_failHere _, yields_failHere _⟩
  | succ levels ih => exact ⟨ih.disjunction, ih.negation⟩

end Grammar

theorem yields_parse (words : Vocabulary) (limits : Limits) :
    Yields words (SearchExpression.parse limits) (Spelled words) :=
  (Grammar.sound_ofLevels words limits _).whole

end SearchExpression

end ODataOptions
