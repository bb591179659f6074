import ODataOptions.Proofs.Token.Reach
import ODataOptions.Text.Quoted

/-!
# Beginnings of texts

What a text begins with is decided by its first characters.  A mark is a token whatever follows it, a
string or a phrase ends at its closing quote, and any other token may be followed by a delimiter
without a change.
-/

namespace ODataOptions

open Pattern TokenPattern

/-! ## First characters -/

namespace Pattern

/-- Whether the pattern is the one that matches no text. -/
def isNothing : Pattern → Bool
  | nothing => true
  | _ => false

theorem longest_of_isNothing {pattern : Pattern} {c : Char} (text : List Char)
    (hnullable : pattern.nullable = false) (hnothing : (pattern.derivative c).isNothing = true) :
    pattern.longest (c :: text) = none := by
  have hderivative : pattern.derivative c = nothing := by
    cases hpattern : pattern.derivative c <;> simp [hpattern, isNothing] at hnothing ⊢
  rw [longest_cons, hderivative, longest_nothing, hnullable]
  rfl

theorem longest_empty (text : List Char) : empty.longest text = some 0 := by
  cases text with
  | nil => rfl
  | cons c text => rw [longest_cons, derivative, longest_nothing]; rfl

end Pattern

namespace TokenPattern

/-- The patterns of tokens that a character can begin. -/
def beginningWith (c : Char) : List (TokenKind × Pattern) :=
  all.filter fun entry => !(entry.2.derivative c).isNothing

theorem nullable_of_mem_all : ∀ entry ∈ all, entry.2.nullable = false := by
  decide

theorem kind_ne_endOfInput_of_mem_all : ∀ entry ∈ all, entry.1 ≠ .endOfInput := by
  decide

/-- The other patterns match nothing that begins with the character. -/
theorem longestOf_beginningWith (c : Char) (text : List Char) :
    longestOf (c :: text) all = longestOf (c :: text) (beginningWith c) := by
  have hfilter : ∀ patterns : List (TokenKind × Pattern),
      (∀ entry ∈ patterns, entry.2.nullable = false) →
        longestOf (c :: text) patterns =
          longestOf (c :: text) (patterns.filter fun entry => !(entry.2.derivative c).isNothing) := by
    intro patterns hnullable
    induction patterns with
    | nil => rfl
    | cons entry patterns ih =>
      obtain ⟨hentry, hpatterns⟩ := List.forall_mem_cons.mp hnullable
      cases hnothing : (entry.2.derivative c).isNothing with
      | true =>
        rw [longestOf, longest_of_isNothing text hentry hnothing, ih hpatterns,
          List.filter_cons_of_neg (by simp [hnothing])]
      | false =>
        rw [List.filter_cons_of_pos (by simp [hnothing]), longestOf, longestOf, ih hpatterns]
  exact hfilter all nullable_of_mem_all

/-- Where a character can begin tokens of one pattern only, that pattern decides. -/
theorem longestOf_single {c : Char} {kind : TokenKind} {pattern : Pattern} (text : List Char)
    (honly : beginningWith c = [(kind, pattern)]) :
    longestOf (c :: text) all = (pattern.longest (c :: text)).map fun length => (kind, length) := by
  rw [longestOf_beginningWith, honly, longestOf]
  cases pattern.longest (c :: text) <;> rfl

end TokenPattern

/-- Only strings and dates are looked at more closely than by their longest beginning. -/
theorem beginning_of_longestOf {text : List Char} {kind : TokenKind} {length : Nat}
    (hlongest : longestOf text all = some (kind, length)) (hstring : kind ≠ .string)
    (hdate : kind ≠ .date) : beginning text = .token kind length := by
  unfold beginning
  rw [hlongest]
  cases kind <;> first | rfl | contradiction

/-! ## Marks -/

/-- The tokens of a single character. -/
def marks : List (Char × TokenKind) :=
  [('*', .star), ('/', .slash), ('(', .openParen), (')', .closeParen), (',', .comma),
   (';', .semicolon), ('=', .equals)]

/-- A mark is a token whatever follows it. -/
theorem beginning_mark {c : Char} {kind : TokenKind} (hmark : (c, kind) ∈ marks)
    (text : List Char) : beginning (c :: text) = .token kind 1 := by
  have honly : beginningWith c = [(kind, char c)] := by
    simp only [marks, List.mem_cons, Prod.mk.injEq, List.not_mem_nil, or_false] at hmark
    rcases hmark with ⟨rfl, rfl⟩ | ⟨rfl, rfl⟩ | ⟨rfl, rfl⟩ | ⟨rfl, rfl⟩ | ⟨rfl, rfl⟩ | ⟨rfl, rfl⟩ |
      ⟨rfl, rfl⟩ <;> rfl
  have hlongest : (char c).longest (c :: text) = some 1 := by
    rw [longest_cons, char, derivative, if_pos (by simp), longest_empty]
  have hkind : kind ≠ .string ∧ kind ≠ .date := by
    simp only [marks, List.mem_cons, Prod.mk.injEq, List.not_mem_nil, or_false] at hmark
    rcases hmark with ⟨-, rfl⟩ | ⟨-, rfl⟩ | ⟨-, rfl⟩ | ⟨-, rfl⟩ | ⟨-, rfl⟩ | ⟨-, rfl⟩ | ⟨-, rfl⟩ <;>
      decide
  refine beginning_of_longestOf ?_ hkind.1 hkind.2
  rw [longestOf_single text honly, hlongest]
  rfl

/-! ## Strings and phrases -/

namespace TokenPattern

/-- What may follow the opening quote of a string. -/
def stringRest : Pattern :=
  seq (many (either (oneOf (· ≠ '\'')) (seq (char '\'') (char '\'')))) (seq (char '\'') empty)

/-- Within a string, every other character than a quote leads back to the same state. -/
theorem derivative_stringRest {c : Char} (hne : c ≠ '\'') :
    stringRest.derivative c = stringRest := by
  simp [stringRest, derivative, followedBy, orElse, char, nullable, hne]

/-- A string goes on up to a quote that no other one follows. -/
theorem longest_stringRest (text rest : List Char) (hrest : rest.head? ≠ some '\'') :
    stringRest.longest (Text.Doubled.encode '\'' text ++ '\'' :: rest) =
      some ((Text.Doubled.encode '\'' text).length + 1) := by
  induction text with
  | nil =>
    cases rest with
    | nil => rfl
    | cons c rest =>
      have hne : c ≠ '\'' := fun heq => hrest (by rw [heq]; rfl)
      have hclosed : ((stringRest.derivative '\'').derivative c).longest rest = none := by
        simp [stringRest, derivative, followedBy, orElse, char, nullable, hne, longest_nothing]
      change stringRest.longest ('\'' :: c :: rest) = some 1
      rw [longest_cons, longest_cons, hclosed]
      rfl
  | cons c text ih =>
    by_cases hquote : c = '\''
    · subst hquote
      have hpair : (stringRest.derivative '\'').derivative '\'' = stringRest := rfl
      change stringRest.longest
        ('\'' :: '\'' :: (Text.Doubled.encode '\'' text ++ '\'' :: rest)) = _
      rw [longest_cons, longest_cons, hpair, ih]
      simp [Text.Doubled.encode]
    · have hcons : Text.Doubled.encode '\'' (c :: text) =
          c :: Text.Doubled.encode '\'' text := by
        simp [Text.Doubled.encode, hquote]
      rw [hcons, List.cons_append, longest_cons, derivative_stringRest hquote, ih]
      rfl

/-- What may follow the opening quote of a phrase. -/
def phraseRest : Pattern :=
  seq (many (either (oneOf fun c => c ≠ '"' && c ≠ '\\') (seq (char '\\') (oneOf (· ≠ '\n')))))
    (char '"')

theorem derivative_phraseRest {c : Char} (hquote : c ≠ '"') (hescape : c ≠ '\\') :
    phraseRest.derivative c = phraseRest := by
  simp [phraseRest, derivative, followedBy, orElse, char, nullable, hquote, hescape]

/-- A phrase goes on up to a quote that is not escaped. -/
theorem longest_phraseRest (text rest : List Char) :
    phraseRest.longest (Text.Escaped.encode '"' text ++ '"' :: rest) =
      some ((Text.Escaped.encode '"' text).length + 1) := by
  induction text with
  | nil =>
    have hclosed : phraseRest.derivative '"' = empty := rfl
    change phraseRest.longest ('"' :: rest) = some 1
    rw [longest_cons, hclosed, longest_empty]
  | cons c text ih =>
    by_cases hspecial : c = '"' ∨ c = '\\'
    · have hcons : Text.Escaped.encode '"' (c :: text) =
          '\\' :: c :: Text.Escaped.encode '"' text := by
        simp [Text.Escaped.encode, hspecial]
      have hpair : (phraseRest.derivative '\\').derivative c = phraseRest := by
        rcases hspecial with rfl | rfl <;> rfl
      rw [hcons, List.cons_append, List.cons_append, longest_cons, longest_cons, hpair, ih]
      rfl
    · obtain ⟨hquote, hescape⟩ := not_or.mp hspecial
      have hcons : Text.Escaped.encode '"' (c :: text) = c :: Text.Escaped.encode '"' text := by
        simp [Text.Escaped.encode, hspecial]
      rw [hcons, List.cons_append, longest_cons, derivative_phraseRest hquote hescape, ih]
      rfl

end TokenPattern

/-- A string in quotes, where each quote within is doubled, is a token if no quote follows. -/
theorem beginning_string (text rest : List Char) (hrest : rest.head? ≠ some '\'') :
    beginning ('\'' :: (Text.Doubled.encode '\'' text ++ '\'' :: rest)) =
      .token .string ((Text.Doubled.encode '\'' text).length + 2) := by
  have honly : beginningWith '\'' = [(.string, string)] := rfl
  have hopen : string.derivative '\'' = stringRest := rfl
  have hlongest : longestOf ('\'' :: (Text.Doubled.encode '\'' text ++ '\'' :: rest)) all =
      some (.string, (Text.Doubled.encode '\'' text).length + 2) := by
    rw [longestOf_single _ honly, longest_cons, hopen, longest_stringRest text rest hrest]
    rfl
  have hbehind : ('\'' :: (Text.Doubled.encode '\'' text ++ '\'' :: rest))[
      (Text.Doubled.encode '\'' text).length + 2]? = rest.head? := by
    rw [List.getElem?_cons_succ, List.getElem?_append_right (Nat.le_succ _), Nat.succ_eq_add_one,
      Nat.add_sub_cancel_left]
    cases rest <;> rfl
  unfold beginning
  rw [hlongest]
  simp only [hbehind, if_neg hrest]

/-- A phrase in quotes, where quotes within are escaped, is a token. -/
theorem beginning_phrase (text rest : List Char) :
    beginning ('"' :: (Text.Escaped.encode '"' text ++ '"' :: rest)) =
      .token .quotedPhrase ((Text.Escaped.encode '"' text).length + 2) := by
  have honly : beginningWith '"' = [(.quotedPhrase, quotedPhrase)] := rfl
  have hopen : quotedPhrase.derivative '"' = phraseRest := rfl
  refine beginning_of_longestOf ?_ (by decide) (by decide)
  rw [longestOf_single _ honly, longest_cons, hopen, longest_phraseRest]
  rfl

/-! ## Tokens and what follows them -/

/-- The characters that stand directly behind tokens. -/
def delimiters : List Char := [' ', '/', '(', ')', ',', ';', '=']

/-- The text is empty or begins with a delimiter. -/
def Stops (text : List Char) : Prop := ∀ c ∈ text.head?, c ∈ delimiters

/-- The delimiters and the blanks that may stand between tokens. -/
def separators : List Char := delimiters ++ ['\t', '\r', '\n']

/-- The text is empty or begins with a delimiter or a blank. -/
def Separates (text : List Char) : Prop := ∀ c ∈ text.head?, c ∈ separators

theorem Stops.separates {text : List Char} (hstops : Stops text) : Separates text :=
  fun c hc => List.mem_append_left _ (hstops c hc)

namespace TokenPattern

/-- Behind a first character that is no quote, a token does not hold a separator. -/
theorem excludes_derivative {c : Char} (hstring : c ≠ '\'') (hphrase : c ≠ '"') :
    ∀ entry ∈ all, (entry.2.derivative c).Excludes separators := by
  have hplain : ∀ {pattern : Pattern}, pattern.excludes separators = true →
      (pattern.derivative c).Excludes separators :=
    fun hcheck => (excludes_sound hcheck).derivative c
  have hmark : ∀ mark : Char, ((char mark).derivative c).Excludes separators := by
    intro mark
    unfold char derivative
    split
    · exact excludes_sound rfl
    · exact excludes_sound rfl
  have hquoted : string.derivative c = nothing ∧ quotedPhrase.derivative c = nothing := by
    simp [string, quotedPhrase, openPhrase, inOrder, derivative, followedBy, char, nullable, hstring,
      hphrase]
  have hkeyword : ∀ entry ∈ OptionKind.all.map fun kind =>
      (TokenKind.option kind, keyword kind.keyword), entry.2.excludes separators = true := by
    decide
  refine List.forall_mem_append.mpr ⟨fun entry hmem => hplain (hkeyword entry hmem), ?_⟩
  simp only [List.forall_mem_cons, hquoted, hmark, List.not_mem_nil, false_implies,
    implies_true, and_true]
  exact ⟨hplain rfl, hplain rfl, hplain rfl, hplain rfl, hplain rfl, hplain rfl,
    excludes_sound rfl, hplain rfl, hplain rfl, hplain rfl, excludes_sound rfl⟩

/-- Only a quote begins a string. -/
theorem longestOf_ne_string {c : Char} (hstring : c ≠ '\'') (text : List Char) (length : Nat) :
    longestOf (c :: text) all ≠ some (.string, length) := by
  intro hlongest
  obtain ⟨⟨pattern, hmem, hreach⟩, -⟩ := longestOf_eq_some hlongest
  have hpattern : pattern = string := by
    simpa [all, OptionKind.all] using hmem
  have hnothing : (string.derivative c).isNothing = true := by
    simp [string, inOrder, derivative, followedBy, char, nullable, isNothing, hstring]
  rw [hpattern, longest_of_isNothing text rfl hnothing] at hreach
  cases hreach

end TokenPattern

/-- A token is the longest beginning, except for a date that is read as a number. -/
theorem longestOf_of_beginning {text : List Char} {kind : TokenKind} {length : Nat}
    (htoken : beginning text = .token kind length) :
    ∃ found, longestOf text all = some (found, length) ∧
      (found = kind ∨ found = .date ∧ kind = .integer ∧ dateMinutes.starts text = true) := by
  unfold beginning at htoken
  cases hfound : longestOf text all with
  | none =>
    rw [hfound] at htoken
    dsimp only at htoken
    split at htoken <;> cases htoken
  | some found =>
    obtain ⟨found, reach⟩ := found
    rw [hfound] at htoken
    cases found with
    | string =>
      dsimp only at htoken
      split at htoken
      · cases htoken
      · cases htoken
        exact ⟨.string, rfl, .inl rfl⟩
    | date =>
      dsimp only at htoken
      split at htoken
      · cases htoken
      · split at htoken
        · next hminutes =>
          cases htoken
          exact ⟨.date, rfl, .inr ⟨rfl, rfl, hminutes⟩⟩
        · cases htoken
          exact ⟨.date, rfl, .inl rfl⟩
    | _ =>
      cases htoken
      exact ⟨_, rfl, .inl rfl⟩

/-- A character that can begin tokens of one kind only begins a token of that kind. -/
theorem kind_of_single {c : Char} {text : List Char} {only kind : TokenKind} {pattern : Pattern}
    {length : Nat} (honly : beginningWith c = [(only, pattern)]) (hdate : only ≠ .date)
    (htoken : beginning (c :: text) = .token kind length) : kind = only := by
  obtain ⟨found, hlongest, hfound⟩ := longestOf_of_beginning htoken
  rw [longestOf_single text honly] at hlongest
  obtain ⟨reach, -, hresult⟩ := Option.map_eq_some_iff.mp hlongest
  cases hresult
  rcases hfound with rfl | ⟨rfl, -, -⟩
  · rfl
  · exact absurd rfl hdate

/-- A token takes no more characters than the text has. -/
theorem le_length_of_beginning {text : List Char} {kind : TokenKind} {length : Nat}
    (htoken : beginning text = .token kind length) : length ≤ text.length := by
  obtain ⟨found, hlongest, -⟩ := longestOf_of_beginning htoken
  obtain ⟨⟨pattern, -, hreach⟩, -⟩ := longestOf_eq_some hlongest
  exact (longest_eq_some_iff.mp hreach).1

theorem pos_of_beginning {text : List Char} {kind : TokenKind} {length : Nat}
    (htoken : beginning text = .token kind length) : 0 < length := by
  obtain ⟨found, hlongest, -⟩ := longestOf_of_beginning htoken
  obtain ⟨⟨pattern, hmem, hreach⟩, -⟩ := longestOf_eq_some hlongest
  obtain ⟨-, hmatches, -⟩ := longest_eq_some_iff.mp hreach
  apply Nat.pos_of_ne_zero
  intro hzero
  rw [hzero, List.take_zero, ← nullable_iff, nullable_of_mem_all _ hmem] at hmatches
  cases hmatches

theorem kind_ne_endOfInput_of_beginning {text : List Char} {kind : TokenKind} {length : Nat}
    (htoken : beginning text = .token kind length) : kind ≠ .endOfInput := by
  obtain ⟨found, hlongest, hfound⟩ := longestOf_of_beginning htoken
  obtain ⟨⟨pattern, hmem, -⟩, -⟩ := longestOf_eq_some hlongest
  rcases hfound with rfl | ⟨-, rfl, -⟩
  · exact kind_ne_endOfInput_of_mem_all _ hmem
  · decide

/-- A token that no quote begins is the same token before a separator. -/
theorem beginning_append {c : Char} {text rest : List Char} {kind : TokenKind} {length : Nat}
    (hstring : c ≠ '\'') (hphrase : c ≠ '"') (hrest : Separates rest)
    (htoken : beginning (c :: text) = .token kind length) :
    beginning (c :: text ++ rest) = .token kind length := by
  have hlongest : longestOf (c :: text ++ rest) all = longestOf (c :: text) all := by
    apply longestOf_congr
    intro entry hmem
    rw [List.cons_append, longest_cons, longest_cons,
      (excludes_derivative hstring hphrase entry hmem).longest_append hrest]
  have hdates : dateFraction.Excludes separators ∧ dateMinutes.Excludes separators :=
    ⟨excludes_sound rfl, excludes_sound rfl⟩
  have hminutes : dateMinutes.starts (c :: text ++ rest) = dateMinutes.starts (c :: text) := by
    rw [starts, starts, hdates.2.longest_append hrest]
  unfold beginning at htoken ⊢
  rw [hlongest, hdates.1.longest_append hrest, hminutes]
  cases hfound : longestOf (c :: text) all with
  | none =>
    rw [hfound] at htoken
    dsimp only at htoken
    split at htoken <;> cases htoken
  | some found =>
    obtain ⟨found, reach⟩ := found
    rw [hfound] at htoken
    cases found with
    | string => exact absurd hfound (longestOf_ne_string hstring text reach)
    | _ => exact htoken

/-- A token that is the longest beginning of a text is the same token by itself. -/
theorem beginning_take {text : List Char} {kind : TokenKind} {length : Nat}
    (htoken : beginning text = .token kind length)
    (hlongest : longestOf text all = some (kind, length)) :
    beginning (text.take length) = .token kind length := by
  have hmost := (longestOf_eq_some hlongest).2
  have htake : longestOf (text.take length) all = some (kind, length) := by
    rw [← hlongest]
    apply longestOf_congr
    intro entry hmem
    cases hreach : entry.2.longest text with
    | none => exact longest_take_eq_none hreach
    | some reach => exact longest_take hreach (hmost entry hmem reach hreach)
  unfold beginning at htoken ⊢
  rw [hlongest] at htoken
  rw [htake]
  cases kind with
  | string =>
    dsimp only
    have hend : (text.take length)[length]? = none :=
      List.getElem?_eq_none (List.length_take_le length text)
    rw [hend, if_neg (by simp)]
  | date =>
    dsimp only at htoken ⊢
    cases hfraction : dateFraction.longest text with
    | some reach =>
      rw [hfraction] at htoken
      cases htoken
    | none =>
      rw [hfraction] at htoken
      rw [longest_take_eq_none hfraction]
      cases hminutes : dateMinutes.longest text with
      | some reach =>
        rw [starts, hminutes] at htoken
        cases htoken
      | none => rw [starts, longest_take_eq_none hminutes]; rfl
  | _ => rfl

/-! ## Dates that are read as numbers -/

namespace Pattern

/-- The length of the texts of a pattern, where it is plain that all are of one length. -/
def width? : Pattern → Option Nat
  | empty => some 0
  | oneOf _ => some 1
  | seq first second => do return (← first.width?) + (← second.width?)
  | _ => none

/-- Patterns of one width match texts of that width only. -/
theorem length_of_width? {pattern : Pattern} {width : Nat} {text : List Char}
    (hwidth : pattern.width? = some width) (hmatches : Matches pattern text) :
    text.length = width := by
  induction hmatches generalizing width with
  | empty => cases hwidth; rfl
  | oneOf => cases hwidth; rfl
  | seq _ _ ihfirst ihsecond =>
    obtain ⟨first, hfirst, hrest⟩ := Option.bind_eq_some_iff.mp hwidth
    obtain ⟨second, hsecond, hsum⟩ := Option.bind_eq_some_iff.mp hrest
    cases hsum
    rw [List.length_append, ihfirst hfirst, ihsecond hsecond]
  | left => cases hwidth
  | right => cases hwidth
  | done => cases hwidth
  | more => cases hwidth

end Pattern

/-- Behind a date that goes on with minutes stand a `T`, two digits and a colon. -/
theorem drop_date {text : List Char} {length : Nat}
    (hlongest : longestOf text all = some (.date, length))
    (hminutes : dateMinutes.starts text = true) :
    ∃ tens ones rest, tens.isDigit = true ∧ ones.isDigit = true ∧
      text.drop length = 'T' :: tens :: ones :: ':' :: rest := by
  obtain ⟨⟨pattern, hmem, hdate⟩, -⟩ := longestOf_eq_some hlongest
  have hpattern : pattern = date := by
    simpa [all, OptionKind.all] using hmem
  rw [hpattern] at hdate
  obtain ⟨hle, hmatches, -⟩ := longest_eq_some_iff.mp hdate
  have hlength : length = 10 := by
    have hwidth : (text.take length).length = 10 := length_of_width? rfl hmatches
    rwa [List.length_take, Nat.min_eq_left hle] at hwidth
  obtain ⟨reach, hreach⟩ := Option.isSome_iff_exists.mp hminutes
  obtain ⟨-, hmatches, -⟩ := longest_eq_some_iff.mp hreach
  obtain ⟨day, time, hsplit, hday, htime⟩ := matches_seq_iff.mp hmatches
  obtain ⟨mark, clock, rfl, hmark, hclock⟩ := matches_seq_iff.mp htime
  obtain ⟨_, rfl, hT⟩ := matches_oneOf_iff.mp hmark
  obtain ⟨hours, behind, rfl, hhours, hbehind⟩ := matches_seq_iff.mp hclock
  obtain ⟨high, low, rfl, hhigh, hlow⟩ := matches_seq_iff.mp hhours
  obtain ⟨tens, rfl, htens⟩ := matches_oneOf_iff.mp hhigh
  obtain ⟨last, nothing, rfl, hlast, hnothing⟩ := matches_seq_iff.mp hlow
  obtain ⟨ones, rfl, hones⟩ := matches_oneOf_iff.mp hlast
  obtain rfl := matches_empty_iff.mp hnothing
  obtain ⟨colon, minutes, rfl, hcolon, -⟩ := matches_seq_iff.mp hbehind
  obtain ⟨_, rfl, hsign⟩ := matches_oneOf_iff.mp hcolon
  obtain rfl := of_decide_eq_true hT
  obtain rfl := of_decide_eq_true hsign
  have hten : day.length = 10 := length_of_width? rfl hday
  refine ⟨tens, ones, minutes ++ text.drop reach, htens, hones, ?_⟩
  calc text.drop length
      = (text.take reach ++ text.drop reach).drop day.length := by
        rw [List.take_append_drop, hlength, hten]
    _ = _ := by
        rw [hsplit]
        simp

/-- What stands behind such a date is read as a name, and then there is a character that begins
nothing. -/
theorem beginning_minutes {tens ones : Char} (htens : tens.isDigit = true)
    (hones : ones.isDigit = true) (rest : List Char) :
    beginning ('T' :: tens :: ones :: ':' :: rest) = .token .identifier 3 := by
  have honly : beginningWith 'T' = [(.identifier, name), (.qualifiedName, qualifiedName)] := rfl
  have hcut : ∀ {pattern : Pattern}, pattern.excludes [':'] = true →
      pattern.longest (['T', tens, ones] ++ ':' :: rest) = pattern.longest ['T', tens, ones] := by
    intro pattern hcheck
    have hexcludes : pattern.Excludes [':'] := excludes_sound hcheck
    exact hexcludes.longest_append (by simp)
  have hname : name.longest ['T', tens, ones] = some 3 := by
    have hrest : name.derivative 'T' = many (oneOf fun c => c.isAlphanum || c = '_') := rfl
    rw [longest_cons, hrest, longest_cons, longest_cons]
    simp [derivative, Char.isAlphanum, htens, hones, followedBy, longest_nil, nullable]
  have hqualified : ∀ reach, qualifiedName.longest ['T', tens, ones] = some reach → reach ≤ 3 :=
    fun reach hreach => (longest_eq_some_iff.mp hreach).1
  refine beginning_of_longestOf ?_ (by decide) (by decide)
  change longestOf (['T', tens, ones] ++ ':' :: rest) all = _
  rw [List.cons_append, longestOf_beginningWith, honly, ← List.cons_append, longestOf, longestOf,
    longestOf, hcut rfl, hcut rfl, hname]
  cases hreach : qualifiedName.longest ['T', tens, ones] with
  | none => rfl
  | some reach => simp [hqualified reach hreach]

theorem beginning_colon (rest : List Char) : beginning (':' :: rest) = .invalid 1 := by
  have hnone : longestOf (':' :: rest) all = none := by
    rw [longestOf_beginningWith]
    rfl
  unfold beginning
  rw [hnone]
  rfl

end ODataOptions
