import ODataOptions.Parser.Text
import ODataOptions.Proofs.Parser.Reads
import ODataOptions.Proofs.Parser.Yields

/-!
# Whole texts

A parser is run on the tokens of a text only if the text has no faults.  So the words that the parser
sees are tokens by themselves, and it must take all of them.
-/

namespace ODataOptions

open ODataOptions.Parser

variable {α : Type} {parser : Parser α} {source : String} {option : OptionKind} {value : α}

theorem tokensOrFault_of_invalidParts (hfaultless : invalidParts source = []) :
    tokensOrFault source = .ok (tokens source) := by
  rw [tokensOrFault, hfaultless]

/-- A text of the words has tokens of these words, and then the end of the input. -/
theorem Written.tokensOrFault_eq {words : List Word} (hwritten : Written source.toList words) :
    ∃ found stop, tokensOrFault source = .ok (found ++ [.endOfInput stop]) ∧
      found.map Token.word = words := by
  obtain ⟨hfaultless, found, stop, htokens, hwords⟩ := hwritten.tokens
  refine ⟨found, stop, ?_, hwords⟩
  rw [tokensOrFault_of_invalidParts hfaultless, htokens]

/-- The words of a text are passed from its first token, up to the end of the input. -/
theorem Written.exists_passes {words : List Word} (hwritten : Written source.toList words) :
    ∃ stop : Cursor, (Cursor.ofTokens (ODataOptions.tokens source)).Passes words stop ∧
      stop.current.kind = .endOfInput := by
  obtain ⟨-, found, stop, htokens, hwords⟩ := hwritten.tokens
  have hkinds : ∀ token ∈ found, token.kind ≠ .endOfInput := fun token hmem =>
    hwritten.kind_ne_endOfInput token.word (hwords ▸ List.mem_map_of_mem hmem)
  have hahead : (Cursor.ofTokens (ODataOptions.tokens source)).ahead = found ++ [.endOfInput stop] :=
    htokens
  obtain ⟨rest, hend, hpasses⟩ := Cursor.passes_tokens hkinds hahead
  rw [hwords] at hpasses
  refine ⟨rest, hpasses, ?_⟩
  rw [hend]
  rfl

theorem over_tokens (hfaultless : invalidParts source = []) :
    (Cursor.ofTokens (tokens source)).Over Word.IsToken :=
  fun _ hmem hkind => isToken_of_mem_tokens hfaultless hmem hkind

namespace Parser

/-- A text that is parsed has no faults. -/
theorem onText_eq_ok_iff :
    parser.onText source = .ok value ↔
      invalidParts source = [] ∧ ∃ rest, parser (.ofTokens (tokens source)) = .ok value rest := by
  have hrun : parser.onText source = tokensOrFault source >>= parser.onTokens := rfl
  rw [hrun]
  cases hinvalid : invalidParts source with
  | nil =>
    rw [tokensOrFault_of_invalidParts hinvalid]
    change parser.onTokens (tokens source) = .ok value ↔ _
    rw [onTokens, EStateM.run]
    cases parser (.ofTokens (tokens source)) <;> simp
  | cons part parts =>
    have hfault : tokensOrFault source = .error (.ofInvalid part.1 part.2) := by
      rw [tokensOrFault, hinvalid]
    rw [hfault]
    simp [bind, Except.bind]

/-- The parser of a value takes all tokens, up to the end of the input. -/
theorem complete_eq_ok_iff {cursor rest : Cursor} :
    complete option parser cursor = .ok value rest ↔
      parser cursor = .ok value rest ∧ rest.current.kind = .endOfInput := by
  rw [complete, bind_run]
  cases hrun : parser cursor with
  | error fault last => simp
  | ok first middle =>
    dsimp only
    rw [bind_run, current_run]
    dsimp only
    split
    · next hend =>
      rw [pure_run]
      constructor
      · rintro ⟨⟩
        exact ⟨rfl, hend⟩
      · rintro ⟨⟨⟩, -⟩
        rfl
    · next hmore =>
      rw [failHere_run]
      constructor
      · rintro ⟨⟩
      · rintro ⟨⟨⟩, hend⟩
        exact absurd hend hmore

section Map

variable {β : Type} (f : α → β) (parser : Parser α)

theorem complete_map (option : OptionKind) :
    complete option (f <$> parser) = f <$> complete option parser := by
  funext cursor
  rw [map_run, complete, complete, bind_run, bind_run, map_run]
  cases parser cursor with
  | error => rfl
  | ok value rest =>
    dsimp only
    rw [bind_run, bind_run, current_run]
    dsimp only
    split <;> rfl

theorem onText_map (source : String) : (f <$> parser).onText source = (parser.onText source).map f := by
  rw [onText, onText]
  cases tokensOrFault source with
  | error => rfl
  | ok tokens =>
    change onTokens _ tokens = (onTokens _ tokens).map f
    rw [onTokens, onTokens, EStateM.run, EStateM.run, map_run]
    cases parser (.ofTokens tokens) <;> rfl

end Map

/-- What a parser yields from a text, whose words are tokens by themselves. -/
theorem Yields.onText {P : α → Prop} (hparser : Yields Word.IsToken parser P)
    (hrun : (complete option parser).onText source = .ok value) : P value := by
  obtain ⟨hfaultless, rest, hrun⟩ := onText_eq_ok_iff.mp hrun
  exact (hparser (over_tokens hfaultless) (complete_eq_ok_iff.mp hrun).1).1

section Written

variable {words : List Word} {fits : Prop}

/-- A parser that reads the words of some tokens goes up to the end behind them. -/
theorem Reads.on_list {P : α → Prop} (hparser : Reads parser 0 words Word.EndsValue fits P)
    (hkinds : ∀ word ∈ words, word.kind ≠ .endOfInput) {found : List Token}
    (hwords : found.map Token.word = words) (stop : Nat) :
    ∃ rest : Cursor, rest.current = .endOfInput stop ∧
      (fits → ∃ value, parser (.ofTokens (found ++ [.endOfInput stop])) = .ok value rest ∧ P value) ∧
      (¬ fits → ∃ fault last,
        parser (.ofTokens (found ++ [.endOfInput stop])) = .error fault last) := by
  have hfound : ∀ token ∈ found, token.kind ≠ .endOfInput := fun token hmem =>
    hkinds token.word (hwords ▸ List.mem_map_of_mem hmem)
  have hahead : (Cursor.ofTokens (found ++ [.endOfInput stop])).ahead =
      found ++ [.endOfInput stop] := rfl
  obtain ⟨rest, hend, hpasses⟩ := Cursor.passes_tokens hfound hahead
  have hkind : rest.current.kind = .endOfInput := congrArg Token.kind hend
  rw [hwords] at hpasses
  exact ⟨rest, hend, hparser rfl hpasses (.of_endOfInput hkind)⟩

/-- A parser that reads the words of a text goes up to its end. -/
theorem Reads.on_tokens {P : α → Prop} (hparser : Reads parser 0 words Word.EndsValue fits P)
    (hwritten : Written source.toList words) :
    ∃ rest : Cursor, rest.current.kind = .endOfInput ∧
      (fits → ∃ value, parser (.ofTokens (tokens source)) = .ok value rest ∧ P value) ∧
      (¬ fits → ∃ fault last, parser (.ofTokens (tokens source)) = .error fault last) := by
  obtain ⟨rest, hpasses, hend⟩ := hwritten.exists_passes
  exact ⟨rest, hend, hparser rfl hpasses (.of_endOfInput hend)⟩

/-- A text whose words are read has a value. -/
theorem Reads.exists_onText {P : α → Prop} (hparser : Reads parser 0 words Word.EndsValue fits P)
    (hfits : fits) (hwritten : Written source.toList words) (option : OptionKind) :
    ∃ value, (complete option parser).onText source = .ok value ∧ P value := by
  obtain ⟨rest, hend, hok, -⟩ := hparser.on_tokens hwritten
  obtain ⟨value, hrun, hvalue⟩ := hok hfits
  exact ⟨value, onText_eq_ok_iff.mpr ⟨hwritten.tokens.1, rest, complete_eq_ok_iff.mpr ⟨hrun, hend⟩⟩,
    hvalue⟩

/-- Only the value that is read can be the outcome. -/
theorem Reads.onText_eq_ok_iff {result : α}
    (hparser : Reads parser 0 words Word.EndsValue fits (· = value))
    (hwritten : Written source.toList words) :
    (complete option parser).onText source = .ok result ↔ fits ∧ result = value := by
  obtain ⟨rest, hend, hok, herror⟩ := hparser.on_tokens hwritten
  rw [Parser.onText_eq_ok_iff]
  constructor
  · rintro ⟨-, last, hrun⟩
    have hfits : fits := by
      apply Classical.byContradiction
      intro hfits
      obtain ⟨fault, other, hfault⟩ := herror hfits
      rw [(complete_eq_ok_iff.mp hrun).1] at hfault
      cases hfault
    obtain ⟨_, hvalue, rfl⟩ := hok hfits
    rw [(complete_eq_ok_iff.mp hrun).1] at hvalue
    cases hvalue
    exact ⟨hfits, rfl⟩
  · rintro ⟨hfits, rfl⟩
    obtain ⟨_, hrun, rfl⟩ := hok hfits
    exact ⟨hwritten.tokens.1, rest, complete_eq_ok_iff.mpr ⟨hrun, hend⟩⟩

/-- A text that is written as the words is parsed exactly if the limits admit them. -/
theorem Reads.onText_iff (hparser : Reads parser 0 words Word.EndsValue fits (· = value))
    (hwritten : Written source.toList words) :
    (complete option parser).onText source = .ok value ↔ fits := by
  rw [hparser.onText_eq_ok_iff hwritten, and_iff_left rfl]

end Written

end Parser

end ODataOptions
