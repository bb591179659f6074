import ODataOptions.Proofs.Token.Beginning

/-!
# Kinds of tokens

No text is a token of two kinds: the kind can be told from the first character of the text, from the
signs within it and from its length.
-/

namespace ODataOptions

open Pattern

/-! ## Characters that a pattern asks for -/

namespace Pattern

variable {first second : Pattern} {c : Char} {rest text : List Char}

/-- Every text of the pattern holds the character. -/
def Holds (c : Char) (pattern : Pattern) : Prop :=
  ∀ ⦃text⦄, Matches pattern text → c ∈ text

/-- Every text of the pattern holds the character behind its first one. -/
def HoldsBehind (c : Char) (pattern : Pattern) : Prop :=
  ∀ ⦃d rest⦄, Matches pattern (d :: rest) → c ∈ rest

/-- Where the first part of a sequence is not empty, a text of the sequence begins with it. -/
theorem exists_of_matches_seq_cons (hfirst : first.nullable = false)
    (hmatches : Matches (seq first second) (c :: rest)) :
    ∃ head tail, rest = head ++ tail ∧ Matches first (c :: head) ∧ Matches second tail := by
  obtain ⟨head, tail, htext, hhead, htail⟩ := matches_seq_iff.mp hmatches
  cases head with
  | nil =>
    rw [← nullable_iff, hfirst] at hhead
    cases hhead
  | cons d head =>
    obtain ⟨rfl, rfl⟩ := List.cons_eq_cons.mp htext
    exact ⟨head, tail, rfl, hhead, htail⟩

theorem holds_char_seq (c : Char) (second : Pattern) : Holds c (seq (char c) second) := by
  intro text hmatches
  obtain ⟨sign, rest, rfl, hsign, -⟩ := matches_seq_iff.mp hmatches
  obtain ⟨_, rfl, hc⟩ := matches_oneOf_iff.mp hsign
  rw [of_decide_eq_true hc]
  exact List.mem_cons_self

theorem Holds.seq_left (hfirst : Holds c first) : Holds c (seq first second) := by
  intro text hmatches
  obtain ⟨head, tail, rfl, hhead, -⟩ := matches_seq_iff.mp hmatches
  exact List.mem_append_left tail (hfirst hhead)

theorem Holds.seq_right (hsecond : Holds c second) : Holds c (seq first second) := by
  intro text hmatches
  obtain ⟨head, tail, rfl, -, htail⟩ := matches_seq_iff.mp hmatches
  exact List.mem_append_right head (hsecond htail)

theorem Holds.behind (hsecond : Holds c second) (hfirst : first.nullable = false) :
    HoldsBehind c (seq first second) := by
  intro d rest hmatches
  obtain ⟨head, tail, rfl, -, htail⟩ := exists_of_matches_seq_cons hfirst hmatches
  exact List.mem_append_right head (hsecond htail)

theorem HoldsBehind.seq_left (hfirst : HoldsBehind c first) (hnullable : first.nullable = false) :
    HoldsBehind c (seq first second) := by
  intro d rest hmatches
  obtain ⟨head, tail, rfl, hhead, -⟩ := exists_of_matches_seq_cons hnullable hmatches
  exact List.mem_append_left tail (hfirst hhead)

theorem of_matches_oneOf_seq_cons {accepts : Char → Bool}
    (hmatches : Matches (seq (oneOf accepts) second) (c :: rest)) :
    accepts c = true ∧ Matches second rest := by
  obtain ⟨head, tail, rfl, hhead, htail⟩ := exists_of_matches_seq_cons rfl hmatches
  obtain ⟨d, hd, haccepts⟩ := matches_oneOf_iff.mp hhead
  obtain ⟨rfl, rfl⟩ := List.cons_eq_cons.mp hd
  exact ⟨haccepts, htail⟩

/-- A text of a keyword is the keyword up to the case of its letters. -/
theorem folded_of_matches_keyword {word : String} (hmatches : Matches (keyword word) text) :
    text.map Char.toLower = Text.folded word := by
  have hletters : ∀ chars text : List Char, Matches (inOrder (chars.map letter)) text →
      text.map Char.toLower = chars.map Char.toLower := by
    intro chars
    induction chars with
    | nil =>
      intro text hmatches
      rw [matches_empty_iff.mp hmatches]
    | cons d chars ih =>
      intro text hmatches
      obtain ⟨head, tail, rfl, hhead, htail⟩ := matches_seq_iff.mp hmatches
      obtain ⟨c, rfl, hc⟩ := matches_oneOf_iff.mp hhead
      rw [List.map_append, ih tail htail, List.map_singleton, of_decide_eq_true hc]
      rfl
  exact hletters _ _ hmatches

/-- In whatever case its letters are, the text of a keyword is one. -/
theorem matches_keyword_of_folded {word : String}
    (hfolded : text.map Char.toLower = Text.folded word) : Matches (keyword word) text := by
  have hletters : ∀ chars text : List Char, text.map Char.toLower = chars.map Char.toLower →
      Matches (inOrder (chars.map letter)) text := by
    intro chars
    induction chars with
    | nil =>
      intro text hfolded
      rw [List.map_eq_nil_iff.mp hfolded]
      exact .empty
    | cons d chars ih =>
      intro text hfolded
      obtain ⟨c, rest, rfl, hc, hrest⟩ := List.map_eq_cons_iff.mp hfolded
      exact .seq (.oneOf (decide_eq_true hc)) (ih rest hrest)
  exact hletters _ _ hfolded

end Pattern

namespace TokenPattern

/-! ## The kind of a text -/

/-- The characters that begin the tokens of one kind only, or of keywords. -/
def signs : List Char := '$' :: '@' :: '\'' :: '"' :: marks.map Prod.fst

def signKind (c : Char) (rest : List Char) : TokenKind :=
  if c = '$' then ((OptionKind.ofKeyword? (String.ofList (c :: rest))).map .option).getD .ref
  else if c = '@' then .parameterAlias
  else if c = '\'' then .string
  else if c = '"' then .quotedPhrase
  else (marks.lookup c).getD .endOfInput

/-- Whether a number can begin with the character. -/
def startsNumber (c : Char) : Bool := c.isDigit || c = '-'

/-- The kind of a token that begins with a letter, with a digit or with a minus. -/
def plainKind (c : Char) (rest : List Char) : TokenKind :=
  if ':' ∈ rest then .dateTimeOffset
  else if '.' ∈ rest then if startsNumber c then .decimal else .qualifiedName
  else if '-' ∈ rest then if rest.length = 9 then .date else .guid
  else if startsNumber c then .integer else .identifier

/-- The kind of a token of this text, whatever the token is. -/
def kindOf : List Char → TokenKind
  | [] => .endOfInput
  | c :: rest => if c ∈ signs then signKind c rest else plainKind c rest

variable {c : Char} {rest : List Char}

/-- A pattern whose texts hold no sign is told by what its texts hold behind their first character. -/
theorem kindOf_of_plain {kind : TokenKind} {pattern : Pattern} (hnullable : pattern.nullable = false)
    (hsigns : pattern.excludes signs = true)
    (hkind : ∀ c rest, Matches pattern (c :: rest) → plainKind c rest = kind) {text : List Char}
    (hmatches : Matches pattern text) : kindOf text = kind := by
  cases text with
  | nil =>
    rw [← nullable_iff, hnullable] at hmatches
    cases hmatches
  | cons c rest =>
    rw [kindOf, if_neg (excludes_sound hsigns hmatches c List.mem_cons_self)]
    exact hkind c rest hmatches

/-! ### Names and numbers -/

/-- No name begins like a number. -/
theorem startsNumber_of_name (hname : Matches name (c :: rest)) : startsNumber c = false := by
  obtain ⟨hletter, -⟩ := of_matches_oneOf_seq_cons hname
  have hdigit : c.isDigit = false := by
    apply Bool.eq_false_iff.mpr
    intro hdigit
    have hle : c.toNat ≤ 57 := of_decide_eq_true (Bool.and_eq_true_iff.mp hdigit).2
    rcases Bool.or_eq_true_iff.mp hletter with halpha | hunderscore
    · rcases Bool.or_eq_true_iff.mp halpha with hupper | hlower
      · have hge : 65 ≤ c.toNat := (of_decide_eq_true hupper).1
        omega
      · have hge : 97 ≤ c.toNat := of_decide_eq_true (Bool.and_eq_true_iff.mp hlower).1
        omega
    · rw [of_decide_eq_true hunderscore] at hdigit
      cases hdigit
  have hminus : c ≠ '-' := by
    rintro rfl
    cases hletter
  simp [startsNumber, hdigit, hminus]

/-- A minus is not followed by another one. -/
theorem of_matches_integer (hinteger : Matches integer (c :: rest)) :
    startsNumber c = true ∧ '-' ∉ rest := by
  have hdigits : ∀ {text}, Matches (many1 digit) text → '-' ∉ text := by
    intro text hmatches hmem
    have hexcludes : (many1 digit).Excludes ['-'] := excludes_sound rfl
    exact hexcludes hmatches '-' hmem List.mem_cons_self
  obtain ⟨sign, digits, htext, hsign, hmatches⟩ := matches_seq_iff.mp hinteger
  rcases matches_either_iff.mp hsign with hminus | hempty
  · obtain ⟨d, rfl, hd⟩ := matches_oneOf_iff.mp hminus
    obtain ⟨rfl, rfl⟩ := List.cons_eq_cons.mp htext
    rw [of_decide_eq_true hd]
    exact ⟨rfl, hdigits hmatches⟩
  · rw [matches_empty_iff.mp hempty, List.nil_append] at htext
    subst htext
    obtain ⟨hdigit, -⟩ := of_matches_oneOf_seq_cons hmatches
    have hdigit' : c.isDigit = true := hdigit
    exact ⟨by rw [startsNumber, hdigit', Bool.true_or], fun hmem =>
      hdigits hmatches (List.mem_cons_of_mem c hmem)⟩

/-- What a pattern excludes does not stand behind the first character of its texts. -/
theorem not_mem_of_excludes {pattern : Pattern} {d : Char} (hcheck : pattern.excludes [d] = true)
    (hmatches : Matches pattern (c :: rest)) : d ∉ rest :=
  fun hmem => excludes_sound hcheck hmatches d (List.mem_cons_of_mem c hmem) List.mem_cons_self

theorem kindOf_name {text : List Char} (hmatches : Matches name text) :
    kindOf text = .identifier := by
  refine kindOf_of_plain rfl rfl (fun c rest hname => ?_) hmatches
  have hcolon : ':' ∉ rest := not_mem_of_excludes rfl hname
  have hdot : '.' ∉ rest := not_mem_of_excludes rfl hname
  have hminus : '-' ∉ rest := not_mem_of_excludes rfl hname
  simp [plainKind, hcolon, hdot, hminus, startsNumber_of_name hname]

theorem kindOf_qualifiedName {text : List Char} (hmatches : Matches qualifiedName text) :
    kindOf text = .qualifiedName := by
  have hdots : HoldsBehind '.' qualifiedName := (holds_char_seq '.' _).seq_left.behind rfl
  refine kindOf_of_plain rfl rfl (fun c rest hname => ?_) hmatches
  have hcolon : ':' ∉ rest := not_mem_of_excludes rfl hname
  obtain ⟨head, tail, -, hhead, -⟩ := exists_of_matches_seq_cons rfl hname
  simp [plainKind, hcolon, hdots hname, startsNumber_of_name hhead]

theorem kindOf_integer {text : List Char} (hmatches : Matches integer text) :
    kindOf text = .integer := by
  refine kindOf_of_plain rfl rfl (fun c rest hinteger => ?_) hmatches
  have hcolon : ':' ∉ rest := not_mem_of_excludes rfl hinteger
  have hdot : '.' ∉ rest := not_mem_of_excludes rfl hinteger
  obtain ⟨hfirst, hminus⟩ := of_matches_integer hinteger
  simp [plainKind, hcolon, hdot, hminus, hfirst]

theorem kindOf_decimal {text : List Char} (hmatches : Matches decimal text) :
    kindOf text = .decimal := by
  have hdot : HoldsBehind '.' decimal := (holds_char_seq '.' _).behind rfl
  refine kindOf_of_plain rfl rfl (fun c rest hdecimal => ?_) hmatches
  have hcolon : ':' ∉ rest := not_mem_of_excludes rfl hdecimal
  obtain ⟨head, tail, -, hhead, -⟩ := exists_of_matches_seq_cons rfl hdecimal
  simp [plainKind, hcolon, hdot hdecimal, (of_matches_integer hhead).1]

/-! ### Dates and identifiers -/

theorem kindOf_date {text : List Char} (hmatches : Matches date text) : kindOf text = .date := by
  have hminus : HoldsBehind '-' date := (holds_char_seq '-' _).behind rfl
  refine kindOf_of_plain rfl rfl (fun c rest hdate => ?_) hmatches
  have hcolon : ':' ∉ rest := not_mem_of_excludes rfl hdate
  have hdot : '.' ∉ rest := not_mem_of_excludes rfl hdate
  have hlength : (c :: rest).length = 10 := length_of_width? rfl hdate
  simp [plainKind, hcolon, hdot, hminus hdate, Nat.succ.inj hlength]

theorem kindOf_guid {text : List Char} (hmatches : Matches guid text) : kindOf text = .guid := by
  have hminus : HoldsBehind '-' guid := (holds_char_seq '-' _).behind rfl
  refine kindOf_of_plain rfl rfl (fun c rest hguid => ?_) hmatches
  have hcolon : ':' ∉ rest := not_mem_of_excludes rfl hguid
  have hdot : '.' ∉ rest := not_mem_of_excludes rfl hguid
  have hlength : (c :: rest).length = 36 := length_of_width? rfl hguid
  simp [plainKind, hcolon, hdot, hminus hguid, Nat.succ.inj hlength]

theorem kindOf_dateTimeOffset {text : List Char} (hmatches : Matches dateTimeOffset text) :
    kindOf text = .dateTimeOffset := by
  have hcolon : HoldsBehind ':' dateTimeOffset := by
    have hminutes : HoldsBehind ':' dateMinutes :=
      (holds_char_seq ':' _).seq_right.seq_right.behind rfl
    exact hminutes.seq_left rfl
  refine kindOf_of_plain rfl rfl (fun c rest htime => ?_) hmatches
  simp [plainKind, hcolon htime]

/-! ### Signs -/

theorem matches_char_iff {sign : Char} {text : List Char} :
    Matches (char sign) text ↔ text = [sign] := by
  rw [char, matches_oneOf_iff]
  constructor
  · rintro ⟨c, rfl, hc⟩
    rw [of_decide_eq_true hc]
  · rintro rfl
    exact ⟨sign, rfl, decide_eq_true rfl⟩

theorem exists_of_matches_char_seq {sign : Char} {second : Pattern} {text : List Char}
    (hmatches : Matches (seq (char sign) second) text) : ∃ rest, text = sign :: rest := by
  obtain ⟨head, tail, rfl, hhead, -⟩ := matches_seq_iff.mp hmatches
  rw [matches_char_iff.mp hhead]
  exact ⟨tail, rfl⟩

theorem kindOf_parameterAlias {text : List Char} (hmatches : Matches parameterAlias text) :
    kindOf text = .parameterAlias := by
  obtain ⟨rest, rfl⟩ := exists_of_matches_char_seq hmatches
  rfl

theorem kindOf_string {text : List Char} (hmatches : Matches string text) :
    kindOf text = .string := by
  obtain ⟨rest, rfl⟩ := exists_of_matches_char_seq hmatches
  rfl

theorem kindOf_quotedPhrase {text : List Char} (hmatches : Matches quotedPhrase text) :
    kindOf text = .quotedPhrase := by
  obtain ⟨phrase, tail, rfl, hphrase, -⟩ := matches_seq_iff.mp hmatches
  obtain ⟨rest, rfl⟩ := exists_of_matches_char_seq hphrase
  rfl

theorem kindOf_mark {mark : Char × TokenKind} (hmark : mark ∈ marks) {text : List Char}
    (hmatches : Matches (char mark.1) text) : kindOf text = mark.2 := by
  have hkinds : ∀ mark ∈ marks, kindOf [mark.1] = mark.2 := by decide
  rw [matches_char_iff.mp hmatches]
  exact hkinds mark hmark

/-- No capital letter stands for a dollar sign. -/
theorem eq_dollar_of_toLower {c : Char} (hlower : c.toLower = '$') : c = '$' := by
  unfold Char.toLower at hlower
  split at hlower
  · next hupper =>
    have hval := congrArg (fun d : Char => d.val.toNat) hlower
    simp [UInt32.le_iff_toNat_le] at hupper hval
    omega
  · exact hlower

theorem kindOf_keyword {word : String} (hword : (Text.folded word).head? = some '$')
    {text : List Char} (hmatches : Matches (keyword word) text) :
    kindOf text = ((OptionKind.ofKeyword? word).map .option).getD .ref := by
  have hfolded := folded_of_matches_keyword hmatches
  cases text with
  | nil =>
    rw [← hfolded] at hword
    cases hword
  | cons c rest =>
    rw [← hfolded] at hword
    obtain rfl := eq_dollar_of_toLower (Option.some.inj hword)
    have hsame : OptionKind.ofKeyword? (String.ofList ('$' :: rest)) = OptionKind.ofKeyword? word :=
      OptionKind.ofKeyword?_congr (by rw [Text.folded, String.toList_ofList, hfolded])
    rw [← hsame]
    rfl

/-! ### All kinds -/

/-- The kind of a token is determined by its text. -/
theorem kindOf_of_matches : ∀ entry ∈ all, ∀ text, Matches entry.2 text → kindOf text = entry.1 := by
  have hkeywords : ∀ kind : OptionKind, (Text.folded kind.keyword).head? = some '$' := by
    intro kind
    cases kind <;> rfl
  refine List.forall_mem_append.mpr ⟨List.forall_mem_map.mpr fun kind _ text hmatches => ?_, ?_⟩
  · rw [kindOf_keyword (hkeywords kind) hmatches, OptionKind.ofKeyword?_keyword]
    rfl
  · have href : ∀ text, Matches (keyword "$ref") text → kindOf text = .ref :=
      fun text hmatches => @kindOf_keyword "$ref" rfl text hmatches
    have hmark : ∀ mark ∈ marks, ∀ text, Matches (char mark.1) text → kindOf text = mark.2 :=
      fun mark hmark text => kindOf_mark hmark
    simp only [marks, List.forall_mem_cons, List.not_mem_nil, false_implies, implies_true,
      and_true] at hmark ⊢
    exact ⟨href, fun _ => kindOf_name, fun _ => kindOf_qualifiedName, fun _ => kindOf_parameterAlias,
      fun _ => kindOf_integer, fun _ => kindOf_decimal, fun _ => kindOf_string, fun _ => kindOf_date,
      fun _ => kindOf_dateTimeOffset, fun _ => kindOf_guid, fun _ => kindOf_quotedPhrase, hmark⟩

/-- No text is a token of two kinds. -/
theorem kind_unique {text : List Char} {entry entry' : TokenKind × Pattern} (hmem : entry ∈ all)
    (hmem' : entry' ∈ all) (hmatches : Matches entry.2 text) (hmatches' : Matches entry'.2 text) :
    entry.1 = entry'.1 :=
  (kindOf_of_matches entry hmem text hmatches).symm.trans
    (kindOf_of_matches entry' hmem' text hmatches')

end TokenPattern

end ODataOptions
