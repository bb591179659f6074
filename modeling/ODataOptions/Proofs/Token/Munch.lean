import ODataOptions.Proofs.Token.Kinds
import ODataOptions.Proofs.Token.Places

/-!
# Maximal munch

A token is meant to be the longest beginning of the text that is a token of any kind, and text is
meant to be invalid only where no beginning of it is a token.  The texts for which this does not hold
are known exactly: a string with a quote directly behind it, and a date that goes on with hours and
minutes without becoming a date-time.
-/

namespace ODataOptions

open Pattern TokenPattern

/-- The word is the longest beginning of the text that is a token of some kind, and it is a token of
this kind only. -/
structure Munch (text : List Char) (kind : TokenKind) (word : List Char) : Prop where
  begins : word <+: text
  matched : ∃ pattern, (kind, pattern) ∈ TokenPattern.all ∧ Matches pattern word
  longest : ∀ entry ∈ TokenPattern.all, ∀ other, other <+: text → Matches entry.2 other →
    other.length ≤ word.length
  only : ∀ entry ∈ TokenPattern.all, Matches entry.2 word → entry.1 = kind

/-- The lexeme is the one that the rule of the longest beginning yields for the text. -/
def Lexeme.Munches (text : List Char) : Lexeme → Prop
  | token found => Munch text found.kind found.text.toList
  | invalid _ _ => ∀ entry ∈ TokenPattern.all, ∀ word, word <+: text → ¬ Matches entry.2 word

/-- The longest token is a string that a quote follows directly, or a date from which the text goes on
with hours and minutes. -/
def Misread (text : List Char) : Prop :=
  ∃ kind word, Munch text kind word ∧
    (kind = .string ∧ word ++ ['\''] <+: text ∨
      kind = .date ∧ ∃ longer, longer <+: text ∧ Matches dateMinutes longer)

variable {text word word' : List Char} {kind kind' : TokenKind}

/-! ## The longest beginning -/

namespace Pattern

variable {pattern : Pattern} {text word : List Char}

/-- A pattern reaches as far as any beginning that it matches. -/
theorem exists_longest_of_matches (hbegins : word <+: text) (hmatches : Matches pattern word) :
    ∃ reach, pattern.longest text = some reach ∧ word.length ≤ reach := by
  have htake := List.prefix_iff_eq_take.mp hbegins
  cases hlongest : pattern.longest text with
  | none =>
    rw [htake] at hmatches
    exact absurd hmatches (longest_eq_none_iff.mp hlongest _)
  | some reach =>
    refine ⟨reach, rfl, Nat.le_of_not_lt fun hlt => ?_⟩
    rw [htake] at hmatches
    exact (longest_eq_some_iff.mp hlongest).2.2 _ hlt hbegins.length_le hmatches

theorem starts_iff :
    pattern.starts text = true ↔ ∃ word, word <+: text ∧ Matches pattern word := by
  rw [starts, Option.isSome_iff_exists]
  constructor
  · rintro ⟨reach, hreach⟩
    exact ⟨text.take reach, List.take_prefix _ _, (longest_eq_some_iff.mp hreach).2.1⟩
  · rintro ⟨word, hbegins, hmatches⟩
    obtain ⟨reach, hreach, -⟩ := exists_longest_of_matches hbegins hmatches
    exact ⟨reach, hreach⟩

end Pattern

/-- The scanner finds the longest token, and its kind is the only one. -/
theorem munch_of_longestOf {length : Nat} (hlongest : longestOf text all = some (kind, length)) :
    Munch text kind (text.take length) := by
  obtain ⟨⟨pattern, hmem, hreach⟩, hmost⟩ := longestOf_eq_some hlongest
  obtain ⟨hle, hmatches, -⟩ := longest_eq_some_iff.mp hreach
  refine ⟨List.take_prefix _ _, ⟨pattern, hmem, hmatches⟩, ?_, ?_⟩
  · intro entry hentry other hbegins hother
    obtain ⟨reach, hreach, hle'⟩ := exists_longest_of_matches hbegins hother
    rw [List.length_take, Nat.min_eq_left hle]
    exact Nat.le_trans hle' (hmost entry hentry reach hreach)
  · exact fun entry hentry hword => kind_unique hentry hmem hword hmatches

theorem not_matches_of_longestOf (hlongest : longestOf text all = none) :
    ∀ entry ∈ all, ∀ word, word <+: text → ¬ Matches entry.2 word := by
  intro entry hmem word hbegins hmatches
  obtain ⟨reach, hreach, -⟩ := exists_longest_of_matches hbegins hmatches
  rw [longestOf_eq_none hlongest entry hmem] at hreach
  cases hreach

/-- A text has at most one longest token. -/
theorem Munch.unique (hmunch : Munch text kind word) (hmunch' : Munch text kind' word') :
    kind' = kind ∧ word' = word := by
  obtain ⟨pattern, hmem, hmatches⟩ := hmunch.matched
  obtain ⟨pattern', hmem', hmatches'⟩ := hmunch'.matched
  have hle := hmunch'.longest _ hmem _ hmunch.begins hmatches
  have hle' := hmunch.longest _ hmem' _ hmunch'.begins hmatches'
  have hword : word' = word :=
    (List.prefix_of_prefix_length_le hmunch'.begins hmunch.begins hle').eq_of_length
      (Nat.le_antisymm hle' hle)
  rw [hword] at hmatches'
  exact ⟨hmunch.only _ hmem' hmatches', hword⟩

/-- Whether a text is misread is seen from its longest token. -/
theorem Munch.misread_iff (hmunch : Munch text kind word) :
    Misread text ↔ kind = .string ∧ word ++ ['\''] <+: text ∨
      kind = .date ∧ dateMinutes.starts text = true := by
  rw [starts_iff]
  constructor
  · rintro ⟨kind', word', hmunch', hcases⟩
    obtain ⟨rfl, rfl⟩ := hmunch.unique hmunch'
    exact hcases
  · exact fun hcases => ⟨kind, word, hmunch, hcases⟩

/-! ## What is read -/

/-- A token follows the rule exactly if it is the longest one. -/
theorem Munch.munches_iff (hmunch : Munch text kind word) {found : Beginning} {offset : Nat} :
    (found.lexeme offset text).Munches text ↔
      ∃ length, found = .token kind length ∧ text.take length = word := by
  cases found with
  | token kind' length =>
    change Munch text kind' (String.ofList (text.take length)).toList ↔ _
    rw [String.toList_ofList]
    constructor
    · intro hmunch'
      obtain ⟨rfl, rfl⟩ := hmunch.unique hmunch'
      exact ⟨length, rfl, rfl⟩
    · rintro ⟨_, ⟨⟩, rfl⟩
      exact hmunch
  | invalid length =>
    refine iff_of_false (fun hnone => ?_) fun ⟨_, hfound, _⟩ => nomatch hfound
    obtain ⟨pattern, hmem, hmatches⟩ := hmunch.matched
    exact hnone _ hmem word hmunch.begins hmatches

theorem take_append_prefix_iff {length : Nat} {c : Char} :
    text.take length ++ [c] <+: text ↔ text[length]? = some c := by
  rw [← List.head?_drop]
  calc text.take length ++ [c] <+: text
      ↔ text.take length ++ [c] <+: text.take length ++ text.drop length := by
        rw [List.take_append_drop]
    _ ↔ [c] <+: text.drop length := List.prefix_append_right_inj _
    _ ↔ (text.drop length).head? = some c := by
        cases text.drop length <;> simp [eq_comm]

/-- A date with a fraction of seconds is one with minutes. -/
theorem starts_dateMinutes_of_dateFraction {reach : Nat}
    (hfraction : dateFraction.longest text = some reach) : dateMinutes.starts text = true := by
  obtain ⟨-, hmatches, -⟩ := longest_eq_some_iff.mp hfraction
  obtain ⟨minutes, seconds, htake, hminutes, -⟩ := matches_seq_iff.mp hmatches
  have hbegins : minutes <+: text.take reach := ⟨seconds, htake.symm⟩
  exact starts_iff.mpr ⟨minutes, hbegins.trans (List.take_prefix _ _), hminutes⟩

/-- What a text is read as follows the rule of the longest beginning, unless the text is misread. -/
theorem beginning_munches_iff (text : List Char) (offset : Nat) :
    ((beginning text).lexeme offset text).Munches text ↔ ¬ Misread text := by
  cases hlongest : longestOf text all with
  | none =>
    have hnone := not_matches_of_longestOf hlongest
    have hmisread : ¬ Misread text := by
      rintro ⟨kind, word, hmunch, -⟩
      obtain ⟨pattern, hmem, hmatches⟩ := hmunch.matched
      exact hnone _ hmem word hmunch.begins hmatches
    refine iff_of_true ?_ hmisread
    unfold beginning
    rw [hlongest]
    dsimp only
    split <;> exact hnone
  | some found =>
    obtain ⟨kind, length⟩ := found
    have hmunch := munch_of_longestOf hlongest
    rw [hmunch.munches_iff, hmunch.misread_iff, take_append_prefix_iff]
    unfold beginning
    rw [hlongest]
    cases kind with
    | string =>
      dsimp only
      split
      · next hquote => exact iff_of_false (fun ⟨_, hfound, _⟩ => nomatch hfound) (by simp [hquote])
      · next hquote => exact iff_of_true ⟨length, rfl, rfl⟩ (by simp [hquote])
    | date =>
      dsimp only
      split
      · next reach hfraction =>
        have hminutes := starts_dateMinutes_of_dateFraction hfraction
        exact iff_of_false (fun ⟨_, hfound, _⟩ => nomatch hfound) (by simp [hminutes])
      · split
        · next hminutes =>
          exact iff_of_false (fun ⟨_, hfound, _⟩ => nomatch hfound) (by simp [hminutes])
        · next hminutes => exact iff_of_true ⟨length, rfl, rfl⟩ (by simp [hminutes])
    | _ => exact iff_of_true ⟨length, rfl, rfl⟩ (by simp)

/-- Each lexeme of a text stands behind the blanks before it.  There it follows the rule of the longest
beginning, unless the text there is misread. -/
theorem lexemes_munch_iff {source : String} {lexeme : Lexeme} (hmem : lexeme ∈ lexemes source) :
    ∃ before rest, source.toList = before ++ rest ∧
      lexeme.span.start = (String.ofList before).utf8ByteSize ∧
      (∀ c ∈ rest.head?, isBlank c = false) ∧ (lexeme.Munches rest ↔ ¬ Misread rest) := by
  obtain ⟨before, c, rest, hsource, hblank, rfl⟩ := exists_beginning_of_mem hmem
  refine ⟨before, c :: rest, hsource, ?_, ?_, beginning_munches_iff _ _⟩
  · rw [Beginning.lexeme_span, Nat.zero_add]
  · rintro _ ⟨⟩
    exact hblank

/-- A number breaks off in its exponent, and a letter that begins no token stands behind it. -/
theorem lexemes_munch_iff_broken :
    Lexeme.token ⟨.decimal, "1.5", ⟨0, 3⟩⟩ ∈ lexemes "1.5e é" ∧
    .invalid "é" ⟨5, 7⟩ ∈ lexemes "1.5e é" ∧
    ∀ lexeme ∈ lexemes "1.5e é", ∃ before rest, "1.5e é".toList = before ++ rest ∧
      lexeme.span.start = (String.ofList before).utf8ByteSize ∧
      (lexeme.Munches rest ↔ ¬ Misread rest) := by
  refine ⟨by decide, by decide, fun lexeme hmem => ?_⟩
  obtain ⟨before, rest, hsource, hstart, -, hiff⟩ := lexemes_munch_iff hmem
  exact ⟨before, rest, hsource, hstart, hiff⟩

/-- A date that goes on with a time without an offset is read as a number, and a string with a quote
behind it as no token at all. -/
theorem exists_lexeme_not_munches :
    (∃ lexeme ∈ lexemes "2024-03-01T10:30:00", lexeme.span.start = 0 ∧
      ¬ lexeme.Munches "2024-03-01T10:30:00".toList) ∧
    ∃ lexeme ∈ lexemes "'a''", lexeme.span.start = 0 ∧ ¬ lexeme.Munches "'a''".toList := by
  constructor
  · refine ⟨.token ⟨.integer, "2024-03-01", ⟨0, 10⟩⟩, by decide +kernel, rfl, fun hmunch => ?_⟩
    have hdate : date.longest "2024-03-01".toList = some 10 := by decide +kernel
    obtain ⟨-, hmatches, -⟩ := longest_eq_some_iff.mp hdate
    cases hmunch.only (.date, date) (by simp [TokenPattern.all]) hmatches
  · refine ⟨.invalid "'a''" ⟨0, 4⟩, by decide +kernel, rfl, fun hnone => ?_⟩
    have hstring : string.longest "'a'".toList = some 3 := by decide +kernel
    obtain ⟨-, hmatches, -⟩ := longest_eq_some_iff.mp hstring
    exact hnone (.string, string) (by simp [TokenPattern.all]) _ ⟨['\''], rfl⟩ hmatches

end ODataOptions
