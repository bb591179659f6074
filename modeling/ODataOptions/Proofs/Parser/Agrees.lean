import ODataOptions.Parser.Text
import ODataOptions.Proofs.Parser.Moves
import ODataOptions.Proofs.Parser.Yields

/-!
# Parsers that agree on a vocabulary

`Parser.Agrees words P parser parser'` says that from tokens of the vocabulary `words` both parsers do
the same, be it a value or a fault, and that the values are of the predicate `P`.  The predicate is what
the rest of a parser may use of the values found before, so that two parsers need to agree only there.
There is one rule for each way to build a parser; a loop takes an invariant of its state.
-/

namespace ODataOptions

theorem Cursor.Over.passes {words : Vocabulary} {cursor rest : Cursor} {found : List Word}
    (hover : cursor.Over words) (hpasses : cursor.Passes found rest) : rest.Over words := by
  induction hpasses with
  | nil => exact hover
  | cons _ _ _ ih => exact ih hover.advance

namespace Parser

variable {α β σ : Type} {words : Vocabulary} {P Q : α → Prop}

/-- From tokens of the vocabulary both parsers do the same, and their values are of the predicate. -/
structure Agrees (words : Vocabulary) (P : α → Prop) (parser parser' : Parser α) : Prop where
  same : ∀ ⦃cursor : Cursor⦄, cursor.Over words → parser cursor = parser' cursor
  yields : Yields words parser P

/-- Where a parser leaves the cursor, the tokens ahead are still of the vocabulary. -/
theorem Moves.yields {parser : Parser α} (hparser : Moves parser) :
    Yields words parser fun _ => True := by
  intro cursor value rest hover hrun
  obtain ⟨found, hpasses⟩ := hparser.passes hrun
  exact ⟨trivial, hover.passes hpasses⟩

theorem Yields.agrees {parser : Parser α} (hparser : Yields words parser P) :
    Agrees words P parser parser :=
  ⟨fun _ _ => rfl, hparser⟩

theorem Moves.agrees {parser : Parser α} (hparser : Moves parser) :
    Agrees words (fun _ => True) parser parser :=
  hparser.yields.agrees

namespace Agrees

variable {parser parser' : Parser α}

/-! ## Sequencing -/

theorem pure {value : α} (hvalue : P value) : Agrees words P (pure value) (pure value) :=
  (Yields.pure hvalue).agrees

theorem throw (fault : Fault) : Agrees words P (throw fault) (throw fault) :=
  (yields_throw fault).agrees

theorem failHere (problem : Problem) :
    Agrees words P (failHere problem) (Parser.failHere problem) :=
  (yields_failHere problem).agrees

/-- The second part is compared only at values that the first one yields. -/
theorem bind {P : β → Prop} {parser parser' : Parser β} {next next' : β → Parser α}
    (hparser : Agrees words P parser parser')
    (hnext : ∀ value, P value → Agrees words Q (next value) (next' value)) :
    Agrees words Q (parser >>= next) (parser' >>= next') := by
  have hyields : Yields words (parser >>= next) Q := by
    apply hparser.yields.bind
    intro value hvalue
    exact (hnext value hvalue).yields
  refine ⟨?_, hyields⟩
  intro cursor hover
  have hsame := hparser.same hover
  rw [bind_run, bind_run, ← hsame]
  cases hrun : parser cursor with
  | error fault rest => rfl
  | ok value rest =>
    obtain ⟨hvalue, hrest⟩ := hparser.yields hover hrun
    exact (hnext value hvalue).same hrest

/-- What a value is made into by a function on success. -/
theorem map {P : β → Prop} {parser parser' : Parser β} {f : β → α}
    (hparser : Agrees words P parser parser') (hf : ∀ value, P value → Q (f value)) :
    Agrees words Q (parser >>= fun value => Pure.pure (f value))
      (parser' >>= fun value => Pure.pure (f value)) := by
  apply hparser.bind
  intro value hvalue
  exact pure (hf value hvalue)

/-! ## Loops -/

section Loops

variable {I : σ → Prop}

theorem iterateUpTo {step step' : σ → Parser (Option σ)}
    (hstep : ∀ state, I state →
      Agrees words (fun next? => ∀ next ∈ next?, I next) (step state) (step' state))
    (rounds : Nat) {state : σ} (hstate : I state) :
    Agrees words I (iterateUpTo step rounds state) (iterateUpTo step' rounds state) := by
  induction rounds generalizing state with
  | zero => exact pure hstate
  | succ rounds ih =>
    apply (hstep state hstate).bind
    intro next? hnext
    cases next? with
    | none => exact pure hstate
    | some next => exact ih (hnext next rfl)

theorem iterate {step step' : σ → Parser (Option σ)}
    (hstep : ∀ state, I state →
      Agrees words (fun next? => ∀ next ∈ next?, I next) (step state) (step' state))
    {state : σ} (hstate : I state) :
    Agrees words I (iterate step state) (Parser.iterate step' state) := by
  apply moves_get.agrees.bind
  intro _ _
  exact iterateUpTo hstep _ hstate

theorem separatedFrom {step step' : σ → Parser σ}
    (hstep : ∀ state, I state → Agrees words I (step state) (step' state)) (separator : TokenKind)
    {state : σ} (hstate : I state) :
    Agrees words I (separatedFrom step separator state) (Parser.separatedFrom step' separator state) := by
  apply (hstep state hstate).bind
  intro first hfirst
  refine iterate ?_ hfirst
  intro state hstate
  apply (moves_accept separator).agrees.bind
  intro found _
  cases found with
  | false => exact pure (by simp)
  | true =>
    apply (hstep state hstate).map
    intro next hnext other hother
    cases hother
    exact hnext

theorem unfoldUpTo {step step' : σ → Parser (α × Option σ)}
    (hstep : ∀ state, I state →
      Agrees words (fun result => ∀ next ∈ result.2, I next) (step state) (step' state))
    (rounds : Nat) {state : σ} (hstate : I state) :
    Agrees words (fun _ => True) (unfoldUpTo step rounds state) (unfoldUpTo step' rounds state) := by
  induction rounds generalizing state with
  | zero => exact pure trivial
  | succ rounds ih =>
    apply (hstep state hstate).bind
    rintro ⟨value, next?⟩ hnext
    cases next? with
    | none => exact pure trivial
    | some next => exact (ih (hnext next rfl)).map fun _ _ => trivial

theorem unfold {step step' : σ → Parser (α × Option σ)}
    (hstep : ∀ state, I state →
      Agrees words (fun result => ∀ next ∈ result.2, I next) (step state) (step' state))
    {state : σ} (hstate : I state) :
    Agrees words (fun _ => True) (unfold step state) (Parser.unfold step' state) := by
  apply moves_get.agrees.bind
  intro _ _
  exact unfoldUpTo hstep _ hstate

theorem separated (hparser : Agrees words P parser parser') (separator : TokenKind) :
    Agrees words (fun _ => True) (separated parser separator) (Parser.separated parser' separator) := by
  refine unfold (I := fun _ => True) ?_ trivial
  intro _ _
  apply hparser.bind
  intro _ _
  apply (moves_accept separator).agrees.map
  intro _ _ _ _
  exact trivial

end Loops

/-! ## Texts -/

/-- A text of the vocabulary is parsed alike. -/
theorem onText_eq (hparser : Agrees words P parser parser') (option : OptionKind) {source : String}
    (hover : (Cursor.ofTokens (tokens source)).Over words) :
    (complete option parser).onText source = (complete option parser').onText source := by
  have hcomplete : Agrees words (fun _ => True) (complete option parser) (complete option parser') := by
    apply hparser.bind
    intro value _
    apply Moves.agrees
    apply moves_current.bind
    intro token
    split
    · exact moves_pure value
    · exact moves_failHere _
  rw [onText, onText, tokensOrFault]
  cases invalidParts source with
  | cons part parts => rfl
  | nil =>
    change onTokens _ (tokens source) = onTokens _ (tokens source)
    rw [onTokens, onTokens, EStateM.run, EStateM.run, hcomplete.same hover]

end Agrees

end Parser

end ODataOptions
