import ODataOptions.Proofs.Parser.Reads
import ODataOptions.Proofs.Search.Spelling

/-!
# Search expressions are read back

The canonical text of a search opens a level for each negation and each pair of parentheses.  It is read
back exactly if the limit admits so many levels.
-/

namespace ODataOptions

open ODataOptions.Parser

/-- The word that a text is read as, where it is one. -/
def Word.ofText (text : String) : Word :=
  match lexemes text with
  | [.token token] => token.word
  | _ => .identifier text

theorem Word.IsToken.ofText_eq {kind : TokenKind} {text : String}
    (htoken : Word.IsToken ⟨kind, text⟩) : Word.ofText text = ⟨kind, text⟩ := by
  obtain ⟨span, hlexemes⟩ := htoken
  rw [ofText, hlexemes]
  rfl

theorem Word.kind_ne_of_isSearchWord {word : Word} (hsearch : word.isSearchWord = true)
    (kind : TokenKind)
    (hother : kind ∉ [TokenKind.identifier, .integer, .decimal, .date, .dateTimeOffset, .guid]) :
    word.kind ≠ kind := by
  obtain ⟨found, text⟩ := word
  rintro rfl
  cases found <;> simp_all [isSearchWord, Token.isSearchWord]

namespace SearchExpression

/-- How many levels the canonical text opens inside one another. -/
def levels : SearchExpression → Nat
  | .term _ | .phrase _ => 0
  | .not operand => operand.levels + 1
  | .and left right => max left.levels right.levels + 1
  | .or left right => max left.levels right.levels + 1

def words : SearchExpression → List Word
  | .term text => [.ofText text]
  | .phrase text =>
    [⟨.quotedPhrase, "\"" ++ String.ofList (Text.Escaped.encode '"' text.toList) ++ "\""⟩]
  | .not operand => .identifier "NOT" :: operand.words
  | .and left right => .openParen :: (left.words ++ .identifier "AND" :: right.words) ++ [.closeParen]
  | .or left right => .openParen :: (left.words ++ .identifier "OR" :: right.words) ++ [.closeParen]

theorem writes_pair (sign : String) {left right : String} {leftWords rightWords : List Word}
    (hleft : Writes left leftWords) (hright : Writes right rightWords)
    (hsign : (Word.identifier sign).IsToken) :
    Writes ("(" ++ left ++ (" " ++ sign ++ " ") ++ right ++ ")")
      (.openParen :: (leftWords ++ .identifier sign :: rightWords) ++ [.closeParen]) := by
  have hopens := (opens_space.append_writes (writes_identifier hsign)).append_opens delimits_space
    opens_space
  have hdelimits : Delimits (" " ++ sign ++ " ") := by
    refine ⟨' ', ?_, by decide⟩
    simp
  have hall := ((((opens_openParen.append_writes hleft).append_opens hdelimits hopens).append_writes
    hright).append delimits_closeParen opens_closeParen.writes)
  simpa using hall

/-- The canonical text of a spelled search is written in its words. -/
theorem writes {search : SearchExpression} (hspelled : search.Spelled Word.IsToken) :
    Writes search.print search.words := by
  induction search with
  | term text =>
    obtain ⟨kind, htoken, hsearch⟩ := hspelled
    rw [words, htoken.ofText_eq]
    exact htoken.writes (Word.kind_ne_of_isSearchWord hsearch _ (by decide))
      (Word.kind_ne_of_isSearchWord hsearch _ (by decide))
  | phrase text => exact writes_phrase text
  | not operand ih =>
    have hsign : (Word.identifier "NOT").IsToken := ⟨_, rfl⟩
    have htext : "NOT" ++ " " = "NOT " := by simp
    have hopens := (writes_identifier hsign).append_opens delimits_space opens_space
    rw [htext] at hopens
    exact hopens.append_writes (ih hspelled)
  | and left right ihLeft ihRight =>
    have hwrites := writes_pair "AND" (ihLeft hspelled.1) (ihRight hspelled.2) ⟨_, rfl⟩
    have htext : " " ++ "AND" ++ " " = " AND " := by simp
    rw [htext] at hwrites
    exact hwrites
  | or left right ihLeft ihRight =>
    have hwrites := writes_pair "OR" (ihLeft hspelled.1) (ihRight hspelled.2) ⟨_, rfl⟩
    have htext : " " ++ "OR" ++ " " = " OR " := by simp
    rw [htext] at hwrites
    exact hwrites

/-! ## Parts of the grammar -/

namespace Grammar

/-- No operand begins with the word, and it is not the one that joins operands. -/
def Ends (word : Word) : Prop :=
  ∀ token : Token, token.word = word →
    token.isWord "AND" = false ∧ token.startsSearchOperand = false

theorem ends_or : Ends (.identifier "OR") := by
  rintro ⟨kind, text, span⟩ hword
  obtain ⟨rfl, rfl⟩ := Word.mk.inj hword
  exact ⟨rfl, rfl⟩

/-- Where the value ends, no operand begins. -/
theorem ends_of_endsValue {word : Word} (hends : word.EndsValue) : Ends word := by
  rintro ⟨kind, text, span⟩ rfl
  have hkinds : ∀ kind ∈ [TokenKind.semicolon, .closeParen, .endOfInput],
      Token.isWord ⟨kind, text, span⟩ "AND" = false ∧
        Token.startsSearchOperand ⟨kind, text, span⟩ = false := by
    simp [Token.isWord, Token.startsSearchOperand, Token.isSearchWord, Token.isA,
      TokenKind.contextualWords?]
  exact hkinds kind hends

variable {limits : Limits} {inner : Grammar} {depth : Nat} {words : List Word}
  {follow : Word → Prop} {fits fits' : Prop} {P : SearchExpression → Prop}

theorem reads_conjunctionSign :
    Reads conjunctionSign depth [.identifier "AND"] follow True (· = some ()) :=
  reads_acceptWord rfl (reads_pure trivial rfl)

theorem declines_conjunctionSign (hfollow : ∀ word, follow word → Ends word) :
    Reads conjunctionSign depth [] follow True (· = none) := by
  refine declines_acceptWord (fun word hword => ?_) ?_
  · exact (hfollow word hword ⟨word.kind, word.text, default⟩ rfl).1
  · refine reads_current (R := Ends) hfollow ?_
    intro token hends
    simp only [(hends token rfl).2, Bool.false_eq_true, if_false]
    exact reads_pure trivial rfl

theorem reads_disjunctionSign :
    Reads disjunctionSign depth [.identifier "OR"] follow True (· = some ()) :=
  reads_acceptWord rfl (reads_pure trivial rfl)

/-- Where the value ends, there is no `OR`. -/
theorem declines_disjunctionSign :
    Reads disjunctionSign depth [] Word.EndsValue True (· = none) := by
  have hother : ∀ word : Word, word.EndsValue → word.isWord "OR" = false := by
    intro word hword
    simp [Word.isWord, hword.kind_ne .identifier (by decide)]
  exact declines_acceptWord hother (reads_pure trivial rfl)

theorem reads_conjunction
    (hread : Reads (negation limits inner) depth words (fun _ => True) fits P)
    (hfollow : ∀ word, follow word → Ends word) :
    Reads (conjunction limits inner) depth words follow fits P :=
  hread.chain_single (fun _ _ => trivial) (declines_conjunctionSign hfollow)

theorem reads_disjunction (hread : Reads (conjunction limits inner) depth words Word.EndsValue fits P) :
    Reads (disjunction limits inner) depth words Word.EndsValue fits P :=
  hread.chain_single (fun _ hword => hword) declines_disjunctionSign

theorem reads_group (hcontent : Reads inner.whole depth words Word.EndsValue fits P) :
    Reads (group inner) depth (.openParen :: words ++ [.closeParen]) follow fits P := by
  apply reads_expect rfl
  intro _ _
  refine hcontent.bind_rest (.tail _ (.head _)) ?_
  intro content h
  exact reads_expect rfl fun _ _ => reads_pure trivial h

/-! ## Operands -/

theorem reads_primary_group
    (hgroup : Reads (nested limits.expressionDepth (group inner)) depth (.openParen :: words) follow
      fits P) :
    Reads (primary limits inner) depth (.openParen :: words) follow fits P := by
  refine reads_current (R := (· = .openParen)) rfl ?_
  intro token hword
  rw [← Token.isA_word, hword]
  exact hgroup

theorem reads_primary_term {text : String} (hspelled : (term text).Spelled Word.IsToken) :
    Reads (primary limits inner) depth [.ofText text] follow True (· = .term text) := by
  obtain ⟨kind, htoken, hsearch⟩ := hspelled
  rw [htoken.ofText_eq]
  have hopen : Word.isA ⟨kind, text⟩ .openParen = false :=
    Word.isA_eq_false rfl (Word.kind_ne_of_isSearchWord hsearch _ (by decide))
  have hphrase : Word.isA ⟨kind, text⟩ .quotedPhrase = false :=
    Word.isA_eq_false rfl (Word.kind_ne_of_isSearchWord hsearch _ (by decide))
  refine reads_current (R := (· = ⟨kind, text⟩)) rfl ?_
  intro token hword
  rw [← Token.isA_word, hword, hopen]
  refine declines_takeIf (fun token hword => ?_) (reads_takeIf (fun token hword => ?_) ?_)
  · rw [← Token.isA_word, hword, hphrase]
  · rw [← Token.isSearchWord_word, hword, hsearch]
  · intro token hword
    exact reads_pure trivial (congrArg (fun word => term word.text) hword)

theorem reads_primary_phrase (text : String) :
    Reads (primary limits inner) depth (phrase text).words follow True (· = .phrase text) := by
  refine reads_current (R := (·.kind = .quotedPhrase)) rfl ?_
  intro token hkind
  have hopen : token.word.isA .openParen = false := by
    apply Word.isA_eq_false rfl
    rw [hkind]
    decide
  rw [← Token.isA_word, hopen]
  refine reads_takeIf (fun token hword => ?_) fun token hword => reads_pure trivial ?_
  · rw [← Token.isA_word, hword]
    rfl
  · have htext : token.text.toList = '"' :: (Text.Escaped.encode '"' text.toList ++ ['"']) := by
      rw [show token.text = _ from congrArg Word.text hword]
      exact toList_quoted '"' _
    simp only [phraseText, htext, Text.unquoted_quoted, Text.Escaped.decode_encode,
      String.ofList_toList]

theorem reads_negation_none (hread : Reads (primary limits inner) depth words follow fits P)
    (hfirst : Ahead words follow fun word => word.isWord "NOT" = false) :
    Reads (negation limits inner) depth words follow fits P := by
  apply reads_current hfirst
  intro token hword
  rw [← Token.isWord_word, hword]
  exact hread

theorem reads_negated {operand : SearchExpression}
    (hoperand : Reads inner.operand depth words follow fits (· = operand)) :
    Reads (negated inner) depth (.identifier "NOT" :: words) follow fits (· = .not operand) := by
  apply reads_expect rfl
  intro _ _
  exact hoperand.map fun _ hvalue => congrArg _ hvalue

theorem reads_negation_not
    (hnegated : Reads (nested limits.expressionDepth (negated inner)) depth
      (.identifier "NOT" :: words) follow fits P) :
    Reads (negation limits inner) depth (.identifier "NOT" :: words) follow fits P := by
  refine reads_current (R := fun word => word.isWord "NOT" = true) rfl ?_
  intro token hword
  rw [← Token.isWord_word, hword]
  exact hnegated

/-- No term is taken for the word `NOT`. -/
theorem ahead_term {text : String} (hspelled : (term text).Spelled Word.IsToken) :
    Ahead [.ofText text] follow fun word => word.isWord "NOT" = false := by
  obtain ⟨kind, htoken, hsearch⟩ := hspelled
  rw [htoken.ofText_eq]
  cases kind <;> simp_all [Ahead, Word.isWord, Word.isSearchWord, Token.isSearchWord]

/-! ## Canonical texts -/

/-- At so many open levels the operand is read back, exactly if the limit admits its levels. -/
def ReadsBack (limits : Limits) (search : SearchExpression) : Prop :=
  ∀ levels depth, levels + depth = limits.expressionDepth →
    Reads (negation limits (ofLevels limits levels)) depth search.words (fun _ => True)
      (depth + search.levels ≤ limits.expressionDepth) (· = search)

theorem readsBack_term {text : String} (hspelled : (term text).Spelled Word.IsToken) :
    ReadsBack limits (.term text) := by
  intro levels depth hlevels
  refine (reads_negation_none (reads_primary_term hspelled) (ahead_term hspelled)).congr_fits ?_
  rw [SearchExpression.levels, iff_true]
  omega

theorem readsBack_phrase (text : String) : ReadsBack limits (.phrase text) := by
  intro levels depth hlevels
  refine (reads_negation_none (reads_primary_phrase text) rfl).congr_fits ?_
  rw [SearchExpression.levels, iff_true]
  omega

theorem readsBack_not {operand : SearchExpression} (hread : ReadsBack limits operand) :
    ReadsBack limits (.not operand) := by
  intro levels depth hlevels
  have hnegated : Reads (nested limits.expressionDepth (negated (ofLevels limits levels))) depth
      (SearchExpression.not operand).words (fun _ => True)
      (depth < limits.expressionDepth ∧ depth + 1 + operand.levels ≤ limits.expressionDepth)
      (· = .not operand) := by
    apply reads_nested
    intro hdepth
    refine reads_negated ?_
    obtain ⟨levels, rfl⟩ := Nat.exists_eq_add_of_le' (show 1 ≤ levels by omega)
    exact hread levels (depth + 1) (by omega)
  refine (reads_negation_not hnegated).congr_fits ?_
  rw [SearchExpression.levels]
  omega

/-- A pair of operands in parentheses is read back where its inner text is. -/
theorem readsBack_of_content {search : SearchExpression} (content : List Word) (size : Nat)
    (hwords : search.words = .openParen :: content ++ [.closeParen])
    (hsize : search.levels = size + 1)
    (hcontent : ∀ levels depth, levels + depth = limits.expressionDepth →
      Reads (disjunction limits (ofLevels limits levels)) depth content Word.EndsValue
        (depth + size ≤ limits.expressionDepth) (· = search)) :
    ReadsBack limits search := by
  intro levels depth hlevels
  rw [hwords, hsize]
  have hgroup : Reads (nested limits.expressionDepth (group (ofLevels limits levels))) depth
      (.openParen :: content ++ [.closeParen]) (fun _ => True)
      (depth < limits.expressionDepth ∧ depth + 1 + size ≤ limits.expressionDepth) (· = search) := by
    apply reads_nested
    intro hdepth
    refine reads_group ?_
    obtain ⟨levels, rfl⟩ := Nat.exists_eq_add_of_le' (show 1 ≤ levels by omega)
    exact hcontent levels (depth + 1) (by omega)
  exact (reads_negation_none (reads_primary_group hgroup) rfl).congr_fits (by omega)

/-- Behind the left operand the word `AND` joins the right one, and the value ends. -/
theorem readsBack_and {left right : SearchExpression} (hleft : ReadsBack limits left)
    (hright : ReadsBack limits right) : ReadsBack limits (.and left right) := by
  apply readsBack_of_content (left.words ++ .identifier "AND" :: right.words)
    (max left.levels right.levels) rfl rfl
  intro levels depth hlevels
  have hpair : Reads (conjunction limits (ofLevels limits levels)) depth
      (left.words ++ .identifier "AND" :: right.words) Word.EndsValue
      (depth + left.levels ≤ limits.expressionDepth ∧ depth + right.levels ≤ limits.expressionDepth)
      (· = left.and right) := by
    apply (hleft levels depth hlevels).chain_pair trivial reads_conjunctionSign (ahead_true _ _)
      (hright levels depth hlevels) (fun _ _ => trivial) _
      (declines_conjunctionSign fun _ => ends_of_endsValue)
    rintro _ _ rfl rfl
    exact ⟨_, rfl, rfl⟩
  exact reads_disjunction (hpair.congr_fits (by omega))

theorem readsBack_or {left right : SearchExpression} (hleft : ReadsBack limits left)
    (hright : ReadsBack limits right) : ReadsBack limits (.or left right) := by
  apply readsBack_of_content (left.words ++ .identifier "OR" :: right.words)
    (max left.levels right.levels) rfl rfl
  intro levels depth hlevels
  have hbefore := reads_conjunction (hleft levels depth hlevels)
    fun word (h : word = .identifier "OR") => h ▸ ends_or
  have hbehind := reads_conjunction (hright levels depth hlevels) fun _ => ends_of_endsValue
  have hpair : Reads (disjunction limits (ofLevels limits levels)) depth
      (left.words ++ .identifier "OR" :: right.words) Word.EndsValue
      (depth + left.levels ≤ limits.expressionDepth ∧ depth + right.levels ≤ limits.expressionDepth)
      (· = left.or right) := by
    apply hbefore.chain_pair rfl reads_disjunctionSign (ahead_true _ _) hbehind
      (fun _ hword => hword) _ declines_disjunctionSign
    rintro _ _ rfl rfl
    exact ⟨_, rfl, rfl⟩
  exact hpair.congr_fits (by omega)

theorem readsBack (limits : Limits) {search : SearchExpression}
    (hspelled : search.Spelled Word.IsToken) : ReadsBack limits search := by
  induction search with
  | term text => exact readsBack_term hspelled
  | phrase text => exact readsBack_phrase text
  | not operand ih => exact readsBack_not (ih hspelled)
  | and left right ihLeft ihRight => exact readsBack_and (ihLeft hspelled.1) (ihRight hspelled.2)
  | or left right ihLeft ihRight => exact readsBack_or (ihLeft hspelled.1) (ihRight hspelled.2)

end Grammar

/-- A spelled search is read back, if the limit admits its levels. -/
theorem reads_parse {limits : Limits} {search : SearchExpression}
    (hspelled : search.Spelled Word.IsToken) :
    Reads (parse limits) 0 search.words Word.EndsValue (search.levels ≤ limits.expressionDepth)
      (· = search) := by
  have hread := Grammar.readsBack limits hspelled limits.expressionDepth 0 rfl
  rw [Nat.zero_add] at hread
  exact Grammar.reads_disjunction (Grammar.reads_conjunction hread fun _ => Grammar.ends_of_endsValue)

end SearchExpression

end ODataOptions
