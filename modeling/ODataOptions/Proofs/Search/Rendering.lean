import ODataOptions.Proofs.Parser.Chains
import ODataOptions.Proofs.Parser.Whole
import ODataOptions.Proofs.Precedence
import ODataOptions.Proofs.Search.Completeness

/-!
# Renderings of searches are read back

A search can be written with parentheses around any part of it, and without the word `AND` between
operands next to one another.  It is read from each of these renderings.
-/

namespace ODataOptions

open ODataOptions.Parser

namespace SearchExpression

/-- The words render the search where an operand of the precedence is asked for, and open at most so
many levels inside one another.  The word `AND` may be left out wherever it stands. -/
inductive Renders : Nat → Precedence → SearchExpression → List Word → Prop
  | term {levels : Nat} {precedence : Precedence} (text : String) :
      Renders levels precedence (.term text) [.ofText text]
  | phrase {levels : Nat} {precedence : Precedence} (text : String) :
      Renders levels precedence (.phrase text) (phrase text).words
  | not {levels : Nat} {precedence : Precedence} {operand : SearchExpression} {words : List Word}
      (hloose : precedence ≤ .negation) (hoperand : Renders levels .negation operand words) :
      Renders (levels + 1) precedence (.not operand) (.identifier "NOT" :: words)
  | and {levels : Nat} {precedence : Precedence} {left right : SearchExpression}
      {leftWords rightWords : List Word} (sign : List Word)
      (hsign : sign ∈ [[], [Word.identifier "AND"]]) (hloose : precedence ≤ .conjunction)
      (hleft : Renders levels .conjunction left leftWords)
      (hright : Renders levels .negation right rightWords) :
      Renders levels precedence (.and left right) (leftWords ++ (sign ++ rightWords))
  | or {levels : Nat} {precedence : Precedence} {left right : SearchExpression}
      {leftWords rightWords : List Word} (hloose : precedence ≤ .disjunction)
      (hleft : Renders levels .disjunction left leftWords)
      (hright : Renders levels .conjunction right rightWords) :
      Renders levels precedence (.or left right)
        (leftWords ++ ([.identifier "OR"] ++ rightWords))
  | parentheses {levels : Nat} {precedence : Precedence} {search : SearchExpression}
      {words : List Word} (hinner : Renders levels .disjunction search words) :
      Renders (levels + 1) precedence search (.openParen :: words ++ [.closeParen])

namespace Grammar

/-- An operand begins with the word, and it is not the one that joins operands. -/
def Starts (word : Word) : Prop :=
  ∀ token : Token, token.word = word →
    token.isWord "AND" = false ∧ token.startsSearchOperand = true

theorem starts_openParen : Starts .openParen := by
  rintro ⟨kind, text, span⟩ hword
  obtain ⟨rfl, rfl⟩ := Word.mk.inj hword
  exact ⟨rfl, rfl⟩

theorem starts_not : Starts (.identifier "NOT") := by
  rintro ⟨kind, text, span⟩ hword
  obtain ⟨rfl, rfl⟩ := Word.mk.inj hword
  exact ⟨rfl, rfl⟩

theorem starts_phrase (text : String) : Starts ⟨.quotedPhrase, text⟩ := by
  rintro ⟨kind, text, span⟩ hword
  obtain ⟨rfl, rfl⟩ := Word.mk.inj hword
  exact ⟨rfl, rfl⟩

theorem starts_term {text : String} (hspelled : (term text).Spelled Word.IsToken) :
    Starts (.ofText text) := by
  obtain ⟨kind, htoken, hsearch⟩ := hspelled
  rw [htoken.ofText_eq]
  rintro ⟨kind, text, span⟩ hword
  obtain ⟨rfl, rfl⟩ := Word.mk.inj hword
  have hsearch' : Token.isSearchWord ⟨kind, text, span⟩ = true := hsearch
  refine ⟨?_, by rw [Token.startsSearchOperand, hsearch']; rfl⟩
  cases kind <;> simp_all [Token.isWord, Token.isSearchWord]

end Grammar

section Words

variable {levels : Nat} {precedence : Precedence} {search : SearchExpression} {words : List Word}

/-- A rendering begins like an operand.  Where no negation may stand, it does not begin with the word
`NOT`. -/
theorem Renders.exists_words (hrenders : Renders levels precedence search words)
    (hspelled : search.Spelled Word.IsToken) :
    ∃ word more, words = word :: more ∧ Grammar.Starts word ∧
      (.comparison ≤ precedence → word.isWord "NOT" = false) := by
  induction hrenders with
  | term text =>
    have hahead : Ahead [.ofText text] (fun _ => True) fun word => word.isWord "NOT" = false :=
      Grammar.ahead_term hspelled
    exact ⟨_, _, rfl, Grammar.starts_term hspelled, fun _ => hahead⟩
  | phrase text => exact ⟨_, _, rfl, Grammar.starts_phrase _, fun _ => rfl⟩
  | not hloose =>
    refine ⟨_, _, rfl, Grammar.starts_not, fun hle => ?_⟩
    exact absurd (Nat.le_trans hle hloose) (by decide)
  | and _ _ hloose _ _ ih =>
    obtain ⟨word, more, rfl, hstarts, -⟩ := ih hspelled.1
    refine ⟨word, _, rfl, hstarts, fun hle => ?_⟩
    exact absurd (Nat.le_trans hle hloose) (by decide)
  | or hloose _ _ ih =>
    obtain ⟨word, more, rfl, hstarts, -⟩ := ih hspelled.1
    refine ⟨word, _, rfl, hstarts, fun hle => ?_⟩
    exact absurd (Nat.le_trans hle hloose) (by decide)
  | parentheses => exact ⟨_, _, rfl, Grammar.starts_openParen, fun _ => rfl⟩

/-- Each word of a rendering can be written by itself. -/
theorem Renders.writes_word (hrenders : Renders levels precedence search words)
    (hspelled : search.Spelled Word.IsToken) : ∀ word ∈ words, Writes word.text [word] := by
  induction hrenders with
  | term text =>
    obtain ⟨kind, htoken, hsearch⟩ := hspelled
    rw [htoken.ofText_eq]
    exact List.forall_mem_singleton.mpr
      (htoken.writes (Word.kind_ne_of_isSearchWord hsearch _ (by decide))
        (Word.kind_ne_of_isSearchWord hsearch _ (by decide)))
  | phrase text => exact List.forall_mem_singleton.mpr (writes_phrase text)
  | not _ _ ih => exact List.forall_mem_cons.mpr ⟨writes_identifier ⟨_, rfl⟩, ih hspelled⟩
  | and sign hsign _ _ _ ihLeft ihRight =>
    have hwrites : ∀ word ∈ sign, Writes word.text [word] := by
      rcases List.mem_pair.mp hsign with rfl | rfl
      · simp
      · exact List.forall_mem_singleton.mpr (writes_identifier ⟨_, rfl⟩)
    exact List.forall_mem_append.mpr
      ⟨ihLeft hspelled.1, List.forall_mem_append.mpr ⟨hwrites, ihRight hspelled.2⟩⟩
  | or _ _ _ ihLeft ihRight =>
    refine List.forall_mem_append.mpr ⟨ihLeft hspelled.1, ?_⟩
    exact List.forall_mem_cons.mpr ⟨writes_identifier ⟨_, rfl⟩, ihRight hspelled.2⟩
  | parentheses _ ih =>
    refine List.forall_mem_cons.mpr ⟨opens_openParen.writes, ?_⟩
    exact List.forall_mem_append.mpr
      ⟨ih hspelled, List.forall_mem_singleton.mpr opens_closeParen.writes⟩

end Words

namespace Grammar

variable {limits : Limits} {inner : Grammar} {depth levels : Nat}
  {precedence loose tight : Precedence} {search left right : SearchExpression}
  {words leftWords rightWords : List Word}

/-- The words are read as an operand of the precedence.  Operations of the first two precedences are
chains, which may go on with more operands. -/
def ReadsAs (limits : Limits) (inner : Grammar) (depth : Nat) (precedence : Precedence)
    (words : List Word) (search : SearchExpression) : Prop :=
  match precedence with
  | .disjunction =>
    ReadsChain (conjunction limits inner) disjunctionSign (fun _ left right => .ok (.or left right))
      depth words Ends (· = search)
  | .conjunction =>
    ReadsChain (negation limits inner) conjunctionSign (fun _ left right => .ok (.and left right))
      depth words (fun _ => True) (· = search)
  | .negation => Reads (negation limits inner) depth words (fun _ => True) True (· = search)
  | .comparison | .additive | .multiplicative | .primary =>
    Reads (primary limits inner) depth words (fun _ => True) True (· = search)

theorem ReadsAs.reads_conjunction (hread : ReadsAs limits inner depth .conjunction words search) :
    Reads (conjunction limits inner) depth words Ends True (· = search) :=
  ReadsChain.reads hread (fun _ _ => trivial) (declines_conjunctionSign fun _ h => h)

theorem ReadsAs.reads_disjunction (hread : ReadsAs limits inner depth .disjunction words search) :
    Reads (disjunction limits inner) depth words Word.EndsValue True (· = search) :=
  ReadsChain.reads hread (fun _ => ends_of_endsValue) declines_disjunctionSign

/-- From one precedence to the next looser one, the word `NOT` matters only at negations. -/
theorem ReadsAs.of_tighter (hread : ReadsAs limits inner depth precedence.tighter words search)
    (hnot : precedence = .negation →
      Ahead words (fun _ => True) fun word => word.isWord "NOT" = false) :
    ReadsAs limits inner depth precedence words search := by
  cases precedence with
  | disjunction => exact hread.reads_conjunction.chain_begin
  | conjunction => exact Reads.chain_begin hread
  | negation =>
    have hprimary : Reads (primary limits inner) depth words (fun _ => True) True (· = search) := hread
    exact reads_negation_none hprimary (hnot rfl)
  | comparison | additive | multiplicative | primary => exact hread

/-- An operand that is read at the precedence at which it is rendered is read at a looser one too. -/
theorem ReadsAs.loosen (hread : ReadsAs limits inner depth tight words search) (hle : loose ≤ tight)
    (hrenders : Renders levels tight search words) (hspelled : search.Spelled Word.IsToken) :
    ReadsAs limits inner depth loose words search := by
  obtain ⟨word, more, rfl, -, hnot⟩ := hrenders.exists_words hspelled
  apply Precedence.loosen (P := fun precedence => ReadsAs limits inner depth precedence (word :: more) search)
    hle _ hread
  intro precedence _ _ hbelow hread
  apply hread.of_tighter
  rintro rfl
  exact hnot hbelow

theorem ReadsAs.of_primary
    (hread : Reads (primary limits inner) depth words (fun _ => True) True (· = search))
    (hrenders : Renders levels .primary search words) (hspelled : search.Spelled Word.IsToken) :
    ReadsAs limits inner depth precedence words search := by
  have hprimary : ReadsAs limits inner depth .primary words search := hread
  exact hprimary.loosen precedence.le_primary hrenders hspelled

/-- Where another operand begins, the word `AND` is taken to be meant. -/
theorem reads_juxtaposition : Reads conjunctionSign depth [] Starts True (· = some ()) := by
  refine declines_acceptWord (fun word hstarts => ?_) ?_
  · exact (hstarts ⟨word.kind, word.text, default⟩ rfl).1
  · refine reads_current (R := Starts) (fun _ h => h) ?_
    intro token hstarts
    simp only [(hstarts token rfl).2, if_true]
    exact reads_pure trivial rfl

theorem ReadsAs.and {sign : List Word} (hsign : sign ∈ [[], [Word.identifier "AND"]])
    (hleft : ReadsAs limits inner depth .conjunction leftWords left)
    (hright : ReadsAs limits inner depth .negation rightWords right)
    (hne : rightWords ≠ []) (hstarts : Ahead rightWords (fun _ => True) Starts) :
    ReadsAs limits inner depth .conjunction (leftWords ++ (sign ++ rightWords)) (.and left right) := by
  have hoperator : Reads conjunctionSign depth sign Starts True (· = some ()) := by
    rcases List.mem_pair.mp hsign with rfl | rfl
    · exact reads_juxtaposition
    · exact reads_conjunctionSign
  refine ReadsChain.extend hleft hoperator hstarts hright hne (ahead_true _ _) ?_
  rintro _ _ rfl rfl
  exact ⟨_, rfl, rfl⟩

theorem ReadsAs.or (hleft : ReadsAs limits inner depth .disjunction leftWords left)
    (hright : ReadsAs limits inner depth .conjunction rightWords right) (hne : rightWords ≠ []) :
    ReadsAs limits inner depth .disjunction (leftWords ++ ([.identifier "OR"] ++ rightWords))
      (.or left right) := by
  refine ReadsChain.extend hleft reads_disjunctionSign (ahead_true _ _) hright.reads_conjunction hne
    ends_or ?_
  rintro _ _ rfl rfl
  exact ⟨_, rfl, rfl⟩

/-- The grammar reads a search from each of its renderings that opens no more levels than are left. -/
theorem readsAs_of_renders {spare : Nat} (hrenders : Renders levels precedence search words)
    (hspelled : search.Spelled Word.IsToken) (hlevels : levels ≤ spare)
    (hdepth : spare + depth = limits.expressionDepth) :
    ReadsAs limits (ofLevels limits spare) depth precedence words search := by
  induction hrenders generalizing spare depth with
  | @term levels precedence text =>
    have hrenders : Renders levels .primary (.term text) _ := .term text
    exact ReadsAs.of_primary (reads_primary_term hspelled) hrenders hspelled
  | @phrase levels precedence text =>
    have hrenders : Renders levels .primary (.phrase text) _ := .phrase text
    exact ReadsAs.of_primary (reads_primary_phrase text) hrenders hspelled
  | @not levels precedence operand words hloose hoperand ih =>
    obtain ⟨spare, rfl⟩ := Nat.exists_eq_add_of_le' (Nat.le_of_add_left_le hlevels)
    have hinner : Reads (ofLevels limits (spare + 1)).operand (depth + 1) words (fun _ => True) True
        (· = operand) :=
      ih hspelled (Nat.le_of_succ_le_succ hlevels) (by omega)
    have hread : ReadsAs limits (ofLevels limits (spare + 1)) depth .negation _ _ :=
      reads_negation_not (Reads.nested (by omega) (reads_negated hinner))
    exact hread.loosen hloose (.not (Nat.le_refl _) hoperand) hspelled
  | @and levels precedence left right leftWords rightWords sign hsign hloose hleft hright ihLeft
      ihRight =>
    obtain ⟨word, more, rfl, hstarts, -⟩ := hright.exists_words hspelled.2
    have hread := ReadsAs.and hsign (ihLeft hspelled.1 hlevels hdepth)
      (ihRight hspelled.2 hlevels hdepth) (List.cons_ne_nil word more) hstarts
    exact hread.loosen hloose (.and sign hsign (Nat.le_refl _) hleft hright) hspelled
  | @or levels precedence left right leftWords rightWords hloose hleft hright ihLeft ihRight =>
    obtain ⟨word, more, rfl, -⟩ := hright.exists_words hspelled.2
    have hread := ReadsAs.or (ihLeft hspelled.1 hlevels hdepth) (ihRight hspelled.2 hlevels hdepth)
      (List.cons_ne_nil word more)
    exact hread.loosen hloose (.or (Nat.le_refl _) hleft hright) hspelled
  | @parentheses levels precedence search words hinner ih =>
    obtain ⟨spare, rfl⟩ := Nat.exists_eq_add_of_le' (Nat.le_of_add_left_le hlevels)
    have hcontent := ih hspelled (Nat.le_of_succ_le_succ hlevels) (by omega : spare + (depth + 1) = _)
    have hwhole : Reads (ofLevels limits (spare + 1)).whole (depth + 1) words Word.EndsValue True
        (· = search) :=
      hcontent.reads_disjunction
    have hgroup : Reads (nested limits.expressionDepth (group (ofLevels limits (spare + 1)))) depth
        (.openParen :: words ++ [.closeParen]) (fun _ => True) True (· = search) :=
      Reads.nested (by omega) (reads_group hwhole)
    exact ReadsAs.of_primary (reads_primary_group hgroup) (.parentheses hinner) hspelled

end Grammar

/-- Every search is parsed from each of its renderings up to the end of the input, wherever its words
stand.  There is a text of these words: the one that has a blank between any two of them.  So a word
`AND` that is left out or put in never changes what is parsed. -/
theorem parse_of_renders (limits : Limits) (levels : Nat) (search : SearchExpression)
    (words : List Word) (hspelled : search.Spelled Word.IsToken)
    (hrenders : Renders levels .disjunction search words)
    (hlevels : levels ≤ limits.expressionDepth) :
    (∀ found stop, found.map Token.word = words →
      ∃ rest, parse limits (.ofTokens (found ++ [.endOfInput stop])) = .ok search rest ∧
        rest.current = .endOfInput stop) ∧
    ∃ found stop, tokensOrFault (Word.spaced words) = .ok (found ++ [.endOfInput stop]) ∧
      found.map Token.word = words := by
  have hread : Reads (parse limits) 0 words Word.EndsValue True (· = search) :=
    (Grammar.readsAs_of_renders hrenders hspelled hlevels (Nat.add_zero _)).reads_disjunction
  have hwritten := (writes_spaced (hrenders.writes_word hspelled)).written
  constructor
  · intro found stop hwords
    obtain ⟨rest, hend, hok, -⟩ := hread.on_list hwritten.kind_ne_endOfInput hwords stop
    obtain ⟨_, hrun, rfl⟩ := hok trivial
    exact ⟨rest, hrun, hend⟩
  · exact hwritten.tokensOrFault_eq

/-- Negations come first, operands next to one another are joined next, and alternatives come last. -/
theorem parse_of_renders_juxtaposed :
    ∃ found, tokensOrFault "NOT a \"b c\" OR d AND 2" = .ok found ∧
      ∃ rest, parse {} (.ofTokens found) =
        .ok (.or (.and (.not (.term "a")) (.phrase "b c")) (.and (.term "d") (.term "2"))) rest ∧
        rest.current.kind = .endOfInput := by
  have hspelled : Spelled Word.IsToken
      (.or (.and (.not (.term "a")) (.phrase "b c")) (.and (.term "d") (.term "2"))) :=
    ⟨⟨⟨.identifier, ⟨_, rfl⟩, rfl⟩, trivial⟩, ⟨.identifier, ⟨_, rfl⟩, rfl⟩, .integer, ⟨_, rfl⟩, rfl⟩
  obtain ⟨hparse, found, stop, htokens, hwords⟩ := parse_of_renders {} 1 _ _ hspelled
    (.or (by decide) (.and [] (by decide) (by decide) (.not (by decide) (.term "a")) (.phrase "b c"))
      (.and [.identifier "AND"] (by decide) (by decide) (.term "d") (.term "2"))) (by decide)
  obtain ⟨rest, hrun, hend⟩ := hparse found stop hwords
  exact ⟨_, htokens, rest, hrun, by rw [hend]; rfl⟩

end SearchExpression

end ODataOptions
