import Mathlib.Data.List.Induction
import ODataOptions.Proofs.Token.Writes

/-!
# Texts before a delimiter

The tokens of a text without faults are the same where a delimiter stands behind the text.  A string or
a phrase in it is closed, so what follows cannot become part of it.
-/

namespace ODataOptions

open Pattern TokenPattern

namespace TokenPattern

/-! ## Strings -/

theorem longest_stringRest_cons {c : Char} (hquote : c ≠ '\'') (text : List Char) :
    stringRest.longest (c :: text) = (stringRest.longest text).map (· + 1) := by
  rw [longest_cons, derivative_stringRest hquote]
  cases stringRest.longest text <;> rfl

/-- A pair of quotes is part of a string that goes on, or else its first quote is the end. -/
theorem longest_stringRest_pair (text : List Char) :
    stringRest.longest ('\'' :: '\'' :: text) = some ((stringRest.longest text).elim 1 (· + 2)) := by
  have hpair : (stringRest.derivative '\'').derivative '\'' = stringRest := rfl
  rw [longest_cons, longest_cons, hpair]
  cases stringRest.longest text <;> rfl

/-- A quote ends a string, if no other one follows. -/
theorem longest_stringRest_quote {text : List Char} (hnext : text.head? ≠ some '\'') :
    stringRest.longest ('\'' :: text) = some 1 :=
  longest_stringRest [] text hnext

/-- A string that is closed, and not gone on with by another quote, ends there whatever follows. -/
theorem longest_stringRest_append {text rest : List Char} {length : Nat}
    (hlongest : stringRest.longest text = some length)
    (hbehind : (text ++ rest)[length]? ≠ some '\'') :
    stringRest.longest (text ++ rest) = some length := by
  induction text using List.twoStepInduction generalizing length with
  | nil => cases hlongest
  | singleton c =>
    by_cases hquote : c = '\''
    · subst hquote
      cases hlongest
      apply longest_stringRest_quote
      rwa [List.head?_eq_getElem?]
    · rw [longest_stringRest_cons hquote] at hlongest
      cases hlongest
  | cons_cons c d text ih ihd =>
    by_cases hquote : c = '\''
    · subst hquote
      by_cases hpair : d = '\''
      · subst hpair
        rw [longest_stringRest_pair] at hlongest
        cases hrest : stringRest.longest text with
        | none =>
          rw [hrest] at hlongest
          cases hlongest
          exact absurd rfl hbehind
        | some reach =>
          rw [hrest] at hlongest
          cases hlongest
          rw [List.cons_append, List.cons_append, longest_stringRest_pair, ih hrest hbehind]
      · have hnext : ∀ text : List Char, (d :: text).head? ≠ some '\'' := by
          intro text hhead
          exact hpair (Option.some.inj hhead)
        rw [longest_stringRest_quote (hnext text)] at hlongest
        cases hlongest
        exact longest_stringRest_quote (hnext (text ++ rest))
    · rw [longest_stringRest_cons hquote] at hlongest
      obtain ⟨reach, hreach, rfl⟩ := Option.map_eq_some_iff.mp hlongest
      rw [List.cons_append, longest_stringRest_cons hquote, ihd d hreach hbehind]
      rfl

/-! ## Phrases -/

theorem longest_phraseRest_quote (text : List Char) : phraseRest.longest ('"' :: text) = some 1 :=
  longest_phraseRest [] text

theorem longest_phraseRest_cons {c : Char} (hquote : c ≠ '"') (hescape : c ≠ '\\')
    (text : List Char) :
    phraseRest.longest (c :: text) = (phraseRest.longest text).map (· + 1) := by
  rw [longest_cons, derivative_phraseRest hquote hescape]
  cases phraseRest.longest text <;> rfl

/-- A backslash takes the character behind it along, unless that breaks the line. -/
theorem longest_phraseRest_escape (c : Char) (text : List Char) :
    phraseRest.longest ('\\' :: c :: text) =
      if c = '\n' then none else (phraseRest.longest text).map (· + 2) := by
  rw [longest_cons, longest_cons]
  by_cases hbreak : c = '\n'
  · subst hbreak
    have hnothing : (phraseRest.derivative '\\').derivative '\n' = nothing := rfl
    rw [hnothing, longest_nothing]
    rfl
  · have hpair : (phraseRest.derivative '\\').derivative c = phraseRest := by
      simp [phraseRest, derivative, followedBy, orElse, char, nullable, hbreak]
    rw [hpair, if_neg hbreak]
    cases phraseRest.longest text <;> rfl

/-- A phrase that is closed ends there whatever follows. -/
theorem longest_phraseRest_append {text : List Char} {length : Nat}
    (hlongest : phraseRest.longest text = some length) (rest : List Char) :
    phraseRest.longest (text ++ rest) = some length := by
  induction text using List.twoStepInduction generalizing length with
  | nil => cases hlongest
  | singleton c =>
    by_cases hquote : c = '"'
    · subst hquote
      rw [longest_phraseRest_quote] at hlongest
      rw [← hlongest]
      exact longest_phraseRest_quote rest
    · by_cases hescape : c = '\\'
      · subst hescape
        cases hlongest
      · rw [longest_phraseRest_cons hquote hescape] at hlongest
        cases hlongest
  | cons_cons c d text ih ihd =>
    by_cases hquote : c = '"'
    · subst hquote
      rw [longest_phraseRest_quote] at hlongest
      rw [← hlongest]
      exact longest_phraseRest_quote (d :: text ++ rest)
    · by_cases hescape : c = '\\'
      · subst hescape
        rw [longest_phraseRest_escape] at hlongest
        rw [List.cons_append, List.cons_append, longest_phraseRest_escape]
        split at hlongest
        · cases hlongest
        · next hbreak =>
          obtain ⟨reach, hreach, rfl⟩ := Option.map_eq_some_iff.mp hlongest
          rw [if_neg hbreak, ih hreach]
          rfl
      · rw [longest_phraseRest_cons hquote hescape] at hlongest
        obtain ⟨reach, hreach, rfl⟩ := Option.map_eq_some_iff.mp hlongest
        rw [List.cons_append, longest_phraseRest_cons hquote hescape, ihd d hreach]
        rfl

end TokenPattern

/-! ## Tokens -/

/-- Behind a quote stands a string if another quote ends it, and else nothing but an invalid rest.
-/
theorem beginning_singleQuote (text : List Char) :
    beginning ('\'' :: text) =
      match stringRest.longest text with
      | some reach =>
        if text[reach]? = some '\'' then .invalid ('\'' :: text).length else .token .string (reach + 1)
      | none => .invalid ('\'' :: text).length := by
  have honly : beginningWith '\'' = [(.string, string)] := rfl
  have hopen : string.derivative '\'' = stringRest := rfl
  have hnullable : string.nullable = false := rfl
  unfold beginning
  rw [longestOf_single text honly, longest_cons, hopen, hnullable]
  cases stringRest.longest text <;> rfl

theorem beginning_doubleQuote (text : List Char) :
    beginning ('"' :: text) =
      match phraseRest.longest text with
      | some reach => .token .quotedPhrase (reach + 1)
      | none => .invalid ((openPhrase.longest ('"' :: text)).getD 1) := by
  have honly : beginningWith '"' = [(.quotedPhrase, quotedPhrase)] := rfl
  have hopen : quotedPhrase.derivative '"' = phraseRest := rfl
  have hnullable : quotedPhrase.nullable = false := rfl
  unfold beginning
  rw [longestOf_single text honly, longest_cons, hopen, hnullable]
  cases phraseRest.longest text <;> rfl

/-- A token is the same token before a separator. -/
theorem beginning_append_separates {c : Char} {text rest : List Char} {kind : TokenKind} {length : Nat}
    (hrest : Separates rest) (htoken : beginning (c :: text) = .token kind length) :
    beginning (c :: text ++ rest) = .token kind length := by
  by_cases hstring : c = '\''
  · subst hstring
    rw [beginning_singleQuote] at htoken
    cases hreach : stringRest.longest text with
    | none =>
      rw [hreach] at htoken
      cases htoken
    | some reach =>
      rw [hreach] at htoken
      dsimp only at htoken
      split at htoken
      · cases htoken
      · next hbehind =>
        have hclosed : (text ++ rest)[reach]? ≠ some '\'' := by
          have hle : reach ≤ text.length := (longest_eq_some_iff.mp hreach).1
          rcases Nat.lt_or_eq_of_le hle with hlt | rfl
          · rwa [List.getElem?_append_left hlt]
          · rw [List.getElem?_append_right (Nat.le_refl _), Nat.sub_self, ← List.head?_eq_getElem?]
            intro hhead
            exact absurd (hrest _ hhead) (by decide)
        rw [List.cons_append, beginning_singleQuote, longest_stringRest_append hreach hclosed]
        dsimp only
        rw [if_neg hclosed]
        exact htoken
  · by_cases hphrase : c = '"'
    · subst hphrase
      rw [beginning_doubleQuote] at htoken
      cases hreach : phraseRest.longest text with
      | none =>
        rw [hreach] at htoken
        cases htoken
      | some reach =>
        rw [hreach] at htoken
        rw [List.cons_append, beginning_doubleQuote, longest_phraseRest_append hreach rest]
        exact htoken
    · exact beginning_append hstring hphrase hrest htoken

/-! ## Texts -/

/-- The token that a text begins with stays there when a delimiter is put behind the text. -/
theorem Written.token_append {c : Char} {text rest : List Char} {kind : TokenKind} {length : Nat}
    {words : List Word} (hblank : isBlank c = false) (hstops : Stops rest)
    (htoken : beginning (c :: text) = .token kind (length + 1))
    (hbehind : Written (text.drop length ++ rest) words) :
    Written (c :: text ++ rest) (⟨kind, String.ofList (c :: text.take length)⟩ :: words) := by
  have hle := Nat.le_of_succ_le_succ (le_length_of_beginning htoken)
  have hlength : (c :: text.take length).length = length + 1 := by
    rw [List.length_cons, List.length_take, Nat.min_eq_left hle]
  have hcut : c :: text.take length ++ (text.drop length ++ rest) = c :: text ++ rest := by
    rw [List.cons_append, ← List.append_assoc, List.take_append_drop, List.cons_append]
  have hsame := beginning_append_separates hstops.separates htoken
  rw [← hcut, ← hlength] at hsame
  rw [← hcut]
  exact .token String.toList_ofList hblank hsame hbehind

/-- The lexemes of a text without faults are tokens, and they stay what they are before a delimiter. -/
theorem exists_written_append {steps offset : Nat} {text : List Char} (hsteps : text.length ≤ steps)
    (hfaultless : ∀ lexeme ∈ lexemesFrom steps offset text, lexeme.invalid? = none) :
    ∃ words, ∀ ⦃rest restWords⦄, Stops rest → Written rest restWords →
      Written (text ++ rest) (words ++ restWords) := by
  induction steps generalizing offset text with
  | zero =>
    rw [List.length_eq_zero_iff.mp (Nat.le_zero.mp hsteps)]
    exact ⟨[], fun _ _ _ hrest => hrest⟩
  | succ steps ih =>
    cases text with
    | nil => exact ⟨[], fun _ _ _ hrest => hrest⟩
    | cons c text =>
      cases hblank : isBlank c with
      | true =>
        rw [lexemesFrom_blank hblank] at hfaultless
        obtain ⟨words, hwords⟩ := ih (Nat.le_of_succ_le_succ hsteps) hfaultless
        exact ⟨words, fun _ _ hstops hrest => .blank hblank (hwords hstops hrest)⟩
      | false =>
        cases hbeginning : beginning (c :: text) with
        | invalid length =>
          obtain ⟨word, span, rest, hinvalid⟩ := lexemesFrom_invalid hblank hbeginning steps offset
          rw [hinvalid] at hfaultless
          cases hfaultless _ List.mem_cons_self
        | token kind length =>
          obtain ⟨stop, hfirst⟩ := lexemesFrom_token hblank hbeginning steps offset
          rw [hfirst] at hfaultless
          obtain ⟨shorter, rfl⟩ :=
            Nat.exists_eq_succ_of_ne_zero (Nat.ne_of_gt (pos_of_beginning hbeginning))
          have hdrop : ((c :: text).drop (shorter + 1)).length ≤ steps := by
            rw [List.drop_succ_cons, List.length_drop]
            exact Nat.le_trans (Nat.sub_le _ _) (Nat.le_of_succ_le_succ hsteps)
          obtain ⟨words, hwords⟩ := ih hdrop (List.forall_mem_cons.mp hfaultless).2
          exact ⟨_ :: words, fun _ _ hstops hrest =>
            .token_append hblank hstops hbeginning (hwords hstops hrest)⟩

/-- A text without faults can be followed by a delimiter. -/
theorem exists_writes {source : String} (hfaultless : invalidParts source = []) :
    ∃ words, Writes source words :=
  exists_written_append (Nat.le_refl _) (List.filterMap_eq_nil_iff.mp hfaultless)

end ODataOptions
