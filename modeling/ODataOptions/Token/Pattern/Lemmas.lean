import ODataOptions.Token.Pattern.Basic

/-!
# Laws of patterns

Taking derivatives agrees with the meaning of patterns.  The main statement is
`Pattern.longest_eq_some_iff`: the reach of a pattern into a text is the length of the longest
beginning that the pattern matches.
-/

namespace ODataOptions.Pattern

theorem matches_seq_iff {first second : Pattern} {text : List Char} :
    Matches (seq first second) text ↔
      ∃ head tail, text = head ++ tail ∧ Matches first head ∧ Matches second tail := by
  constructor
  · intro h
    cases h with
    | seq hfirst hsecond => exact ⟨_, _, rfl, hfirst, hsecond⟩
  · rintro ⟨head, tail, rfl, hfirst, hsecond⟩
    exact .seq hfirst hsecond

theorem matches_either_iff {left right : Pattern} {text : List Char} :
    Matches (either left right) text ↔ Matches left text ∨ Matches right text := by
  constructor
  · intro h
    cases h with
    | left h => exact .inl h
    | right h => exact .inr h
  · rintro (h | h)
    · exact .left h
    · exact .right h

@[simp]
theorem matches_empty_iff {text : List Char} : Matches empty text ↔ text = [] := by
  constructor
  · intro h
    cases h
    rfl
  · rintro rfl
    exact .empty

@[simp]
theorem not_matches_nothing {text : List Char} : ¬ Matches nothing text := by
  intro h
  cases h

theorem matches_oneOf_iff {accepts : Char → Bool} {text : List Char} :
    Matches (oneOf accepts) text ↔ ∃ c, text = [c] ∧ accepts c = true := by
  constructor
  · intro h
    cases h with
    | oneOf haccepts => exact ⟨_, rfl, haccepts⟩
  · rintro ⟨c, rfl, haccepts⟩
    exact .oneOf haccepts

theorem nullable_iff (pattern : Pattern) : pattern.nullable = true ↔ Matches pattern [] := by
  induction pattern with
  | nothing => simp [nullable]
  | empty => simp [nullable]
  | oneOf accepts => simp [nullable, matches_oneOf_iff]
  | seq first second hfirst hsecond =>
    simp only [nullable, Bool.and_eq_true, hfirst, hsecond, matches_seq_iff]
    constructor
    · rintro ⟨h, h'⟩
      exact ⟨[], [], rfl, h, h'⟩
    · rintro ⟨head, tail, heq, h, h'⟩
      obtain ⟨rfl, rfl⟩ := List.append_eq_nil_iff.mp heq.symm
      exact ⟨h, h'⟩
  | either left right hleft hright =>
    simp only [nullable, Bool.or_eq_true, hleft, hright, matches_either_iff]
  | many item => simp [nullable, Matches.done]

theorem matches_followedBy_iff {first second : Pattern} {text : List Char} :
    Matches (first.followedBy second) text ↔ Matches (seq first second) text := by
  cases first with
  | empty =>
    rw [matches_seq_iff]
    constructor
    · exact fun h => ⟨[], text, rfl, .empty, h⟩
    · rintro ⟨head, tail, rfl, hhead, htail⟩
      rw [matches_empty_iff.mp hhead]
      exact htail
  | nothing => simp [followedBy, matches_seq_iff]
  | _ => rfl

theorem matches_orElse_iff {left right : Pattern} {text : List Char} :
    Matches (left.orElse right) text ↔ Matches left text ∨ Matches right text := by
  cases left <;> cases right <;> simp [orElse, matches_either_iff]

/-- A text of repetitions that begins with a character begins with a repetition that does. -/
theorem matches_many_cons_iff {item : Pattern} {c : Char} {text : List Char} :
    Matches (many item) (c :: text) ↔
      ∃ head tail, text = head ++ tail ∧ Matches item (c :: head) ∧ Matches (many item) tail := by
  constructor
  · generalize hpattern : many item = pattern
    generalize htext : c :: text = whole
    intro h
    induction h with
    | @more _ word rest hitem hmany _ ih =>
      cases hpattern
      cases word with
      | nil => exact ih rfl htext
      | cons d word =>
        obtain ⟨rfl, rfl⟩ := List.cons_eq_cons.mp htext
        exact ⟨word, rest, rfl, hitem, hmany⟩
    | done => cases htext
    | _ => cases hpattern
  · rintro ⟨head, tail, rfl, hitem, hmany⟩
    exact .more hitem hmany

/-- The derivative matches what may follow the character. -/
theorem matches_derivative_iff (pattern : Pattern) (c : Char) (text : List Char) :
    Matches (pattern.derivative c) text ↔ Matches pattern (c :: text) := by
  induction pattern generalizing text with
  | nothing => simp [derivative]
  | empty => simp [derivative]
  | oneOf accepts =>
    simp only [derivative, matches_oneOf_iff, List.cons.injEq]
    constructor
    · intro h
      split at h
      · next haccepts => exact ⟨c, ⟨rfl, matches_empty_iff.mp h⟩, haccepts⟩
      · exact absurd h not_matches_nothing
    · rintro ⟨_, ⟨rfl, rfl⟩, haccepts⟩
      rw [if_pos haccepts]
      exact .empty
  | either left right hleft hright =>
    simp only [derivative, matches_orElse_iff, matches_either_iff, hleft, hright]
  | many item hitem =>
    simp only [derivative, matches_followedBy_iff, matches_seq_iff, matches_many_cons_iff, hitem]
  | seq first second hfirst hsecond =>
    have hcons : Matches (seq first second) (c :: text) ↔
        (∃ head tail, text = head ++ tail ∧ Matches first (c :: head) ∧ Matches second tail) ∨
          (Matches first [] ∧ Matches second (c :: text)) := by
      rw [matches_seq_iff]
      constructor
      · rintro ⟨head, tail, heq, h, h'⟩
        cases head with
        | nil => exact .inr ⟨h, by simpa [heq] using h'⟩
        | cons d head =>
          obtain ⟨rfl, rfl⟩ := List.cons_eq_cons.mp heq
          exact .inl ⟨head, tail, rfl, h, h'⟩
      · rintro (⟨head, tail, rfl, h, h'⟩ | ⟨h, h'⟩)
        · exact ⟨c :: head, tail, rfl, h, h'⟩
        · exact ⟨[], c :: text, rfl, h, h'⟩
    rw [hcons]
    simp only [derivative]
    split
    · next h =>
      simp only [matches_orElse_iff, matches_followedBy_iff, matches_seq_iff, hfirst, hsecond,
        (nullable_iff first).mp h, true_and]
    · next h =>
      have hnot : ¬ Matches first [] := fun hm => h ((nullable_iff first).mpr hm)
      simp only [matches_followedBy_iff, matches_seq_iff, hfirst, hnot, false_and, or_false]

theorem longest_nothing (text : List Char) : longest nothing text = none := by
  cases text <;> rfl

theorem longest_nil (pattern : Pattern) :
    pattern.longest [] = if pattern.nullable then some 0 else none := by
  cases pattern <;> rfl

theorem longest_cons (pattern : Pattern) (c : Char) (text : List Char) :
    pattern.longest (c :: text) =
      match (pattern.derivative c).longest text with
      | some length => some (length + 1)
      | none => if pattern.nullable then some 0 else none := by
  cases pattern with
  | nothing => simp [longest_nothing, derivative, nullable]
  | _ => rfl

/-- A pattern reaches nowhere into a text exactly if it matches no beginning of it. -/
theorem longest_eq_none_iff {pattern : Pattern} {text : List Char} :
    pattern.longest text = none ↔ ∀ length, ¬ Matches pattern (text.take length) := by
  induction text generalizing pattern with
  | nil => simp [longest_nil, ← nullable_iff]
  | cons c text ih =>
    have hbeginnings : (∀ length, ¬ Matches pattern ((c :: text).take length)) ↔
        ¬ Matches pattern [] ∧ ∀ length, ¬ Matches (pattern.derivative c) (text.take length) := by
      constructor
      · intro h
        refine ⟨h 0, fun length => ?_⟩
        rw [matches_derivative_iff]
        exact h (length + 1)
      · rintro ⟨hnil, hcons⟩ length
        cases length with
        | zero => exact hnil
        | succ length =>
          rw [List.take_succ_cons, ← matches_derivative_iff]
          exact hcons length
    rw [hbeginnings, ← ih, longest_cons, ← nullable_iff]
    cases (pattern.derivative c).longest text <;> simp

/-- The reach of a pattern into a text is the length of the longest beginning that it matches. -/
theorem longest_eq_some_iff {pattern : Pattern} {text : List Char} {length : Nat} :
    pattern.longest text = some length ↔
      length ≤ text.length ∧ Matches pattern (text.take length) ∧
        ∀ longer, length < longer → longer ≤ text.length →
          ¬ Matches pattern (text.take longer) := by
  induction text generalizing pattern length with
  | nil =>
    rw [longest_nil]
    constructor
    · intro h
      split at h
      · next hnullable =>
        cases h
        exact ⟨Nat.le_refl _, (nullable_iff pattern).mp hnullable, fun longer hlt hle => by
          simp only [List.length_nil] at hle
          omega⟩
      · cases h
    · rintro ⟨hle, hmatches, -⟩
      obtain rfl : length = 0 := Nat.le_zero.mp hle
      rw [if_pos ((nullable_iff pattern).mpr hmatches)]
  | cons c text ih =>
    rw [longest_cons]
    cases hfound : (pattern.derivative c).longest text with
    | some reach =>
      obtain ⟨hle, hmatches, hmost⟩ := ih.mp hfound
      simp only [Option.some.injEq]
      constructor
      · rintro rfl
        refine ⟨Nat.succ_le_succ hle, ?_, fun longer hlt hlonger => ?_⟩
        · rw [List.take_succ_cons, ← matches_derivative_iff]
          exact hmatches
        · obtain ⟨longer, rfl⟩ := Nat.exists_eq_succ_of_ne_zero (Nat.ne_zero_of_lt hlt)
          rw [List.take_succ_cons, ← matches_derivative_iff]
          exact hmost longer (Nat.lt_of_succ_lt_succ hlt) (Nat.le_of_succ_le_succ hlonger)
      · rintro ⟨hlength, hword, hlongest⟩
        rcases Nat.lt_trichotomy (reach + 1) length with hlt | heq | hlt
        · obtain ⟨length, rfl⟩ := Nat.exists_eq_succ_of_ne_zero (Nat.ne_zero_of_lt hlt)
          rw [List.take_succ_cons, ← matches_derivative_iff] at hword
          exact absurd hword
            (hmost length (Nat.lt_of_succ_lt_succ hlt) (Nat.le_of_succ_le_succ hlength))
        · exact heq
        · refine absurd ?_ (hlongest (reach + 1) hlt (Nat.succ_le_succ hle))
          rw [List.take_succ_cons, ← matches_derivative_iff]
          exact hmatches
    | none =>
      have hnone := longest_eq_none_iff.mp hfound
      have hshort : ∀ longer, 0 < longer → ¬ Matches pattern ((c :: text).take longer) := by
        intro longer hpos
        obtain ⟨longer, rfl⟩ := Nat.exists_eq_succ_of_ne_zero (Nat.ne_of_gt hpos)
        rw [List.take_succ_cons, ← matches_derivative_iff]
        exact hnone longer
      change (if pattern.nullable then some 0 else none) = some length ↔ _
      constructor
      · intro h
        split at h
        · next hnullable =>
          cases h
          exact ⟨Nat.zero_le _, (nullable_iff pattern).mp hnullable,
            fun longer hlt _ => hshort longer hlt⟩
        · cases h
      · rintro ⟨-, hword, -⟩
        rcases Nat.eq_zero_or_pos length with rfl | hpos
        · rw [if_pos ((nullable_iff pattern).mpr hword)]
        · exact absurd hword (hshort length hpos)

end ODataOptions.Pattern
