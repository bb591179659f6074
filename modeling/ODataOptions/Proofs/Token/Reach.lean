import ODataOptions.Token.Lexer
import ODataOptions.Token.Pattern.Lemmas

/-!
# How far tokens reach

A token that is followed by a delimiter is cut off as if the text ended there, because no pattern of
a token goes on across a delimiter.  The exceptions are strings and phrases, which can hold any
character between their quotes.
-/

namespace ODataOptions

namespace Pattern

/-- No text of the pattern holds one of these characters. -/
def Excludes (chars : List Char) (pattern : Pattern) : Prop :=
  ∀ ⦃text⦄, Matches pattern text → ∀ c ∈ text, c ∉ chars

/-- A check for excluded characters, by the classes of characters in the pattern. -/
def excludes (chars : List Char) : Pattern → Bool
  | nothing | empty => true
  | oneOf accepts => chars.all fun c => !accepts c
  | seq first second => first.excludes chars && second.excludes chars
  | either left right => left.excludes chars && right.excludes chars
  | many item => item.excludes chars

variable {chars text rest : List Char} {pattern : Pattern}

/-- The check on the classes of characters is right about the texts. -/
theorem excludes_sound (hcheck : pattern.excludes chars = true) : pattern.Excludes chars := by
  intro text hmatches
  induction hmatches with
  | empty => simp
  | oneOf haccepts =>
    intro c hmem hchars
    obtain rfl := List.mem_singleton.mp hmem
    have hrefused := List.all_eq_true.mp hcheck c hchars
    rw [haccepts] at hrefused
    cases hrefused
  | seq _ _ ihfirst ihsecond =>
    obtain ⟨hfirst, hsecond⟩ := Bool.and_eq_true_iff.mp hcheck
    exact List.forall_mem_append.mpr ⟨ihfirst hfirst, ihsecond hsecond⟩
  | left _ ih => exact ih (Bool.and_eq_true_iff.mp hcheck).1
  | right _ ih => exact ih (Bool.and_eq_true_iff.mp hcheck).2
  | done => simp
  | more _ _ ihitem ihmany => exact List.forall_mem_append.mpr ⟨ihitem hcheck, ihmany hcheck⟩

/-- What a pattern excludes, it excludes behind a first character too. -/
theorem Excludes.derivative (hexcludes : pattern.Excludes chars) (c : Char) :
    (pattern.derivative c).Excludes chars := by
  intro text hmatches d hmem
  exact hexcludes ((matches_derivative_iff pattern c text).mp hmatches) d (List.mem_cons_of_mem c hmem)

/-- A pattern reaches no further where a character follows that it excludes. -/
theorem Excludes.longest_append (hexcludes : pattern.Excludes chars)
    (hrest : ∀ c ∈ rest.head?, c ∈ chars) : pattern.longest (text ++ rest) = pattern.longest text := by
  induction text generalizing pattern with
  | nil =>
    cases rest with
    | nil => rfl
    | cons c rest =>
      have hnone : (pattern.derivative c).longest rest = none := by
        apply longest_eq_none_iff.mpr
        intro length hmatches
        rw [matches_derivative_iff] at hmatches
        exact hexcludes hmatches c List.mem_cons_self (hrest c rfl)
      rw [List.nil_append, longest_cons, hnone, longest_nil]
  | cons c text ih =>
    rw [List.cons_append, longest_cons, longest_cons, ih (hexcludes.derivative c)]

/-- A beginning that holds all that a pattern reaches decides how far it reaches. -/
theorem longest_take {length reach : Nat} (hlongest : pattern.longest text = some reach)
    (hle : reach ≤ length) : pattern.longest (text.take length) = some reach := by
  obtain ⟨hreach, hmatches, hmost⟩ := longest_eq_some_iff.mp hlongest
  refine longest_eq_some_iff.mpr ⟨?_, ?_, fun longer hlt hlonger => ?_⟩
  · rw [List.length_take]
    exact Nat.le_min.mpr ⟨hle, hreach⟩
  · rw [List.take_take, Nat.min_eq_left hle]
    exact hmatches
  · rw [List.length_take, Nat.le_min] at hlonger
    rw [List.take_take, Nat.min_eq_left hlonger.1]
    exact hmost longer hlt hlonger.2

theorem longest_take_eq_none {length : Nat} (hlongest : pattern.longest text = none) :
    pattern.longest (text.take length) = none := by
  apply longest_eq_none_iff.mpr
  intro shorter
  rw [List.take_take]
  exact longest_eq_none_iff.mp hlongest _

end Pattern

namespace TokenPattern

open Pattern

/-! ## The longest of several patterns -/

theorem longestOf_congr {text other : List Char} {patterns : List (TokenKind × Pattern)}
    (hsame : ∀ entry ∈ patterns, entry.2.longest text = entry.2.longest other) :
    longestOf text patterns = longestOf other patterns := by
  induction patterns with
  | nil => rfl
  | cons entry patterns ih =>
    obtain ⟨hentry, hpatterns⟩ := List.forall_mem_cons.mp hsame
    rw [longestOf, longestOf, hentry, ih hpatterns]

theorem longestOf_eq_none {text : List Char} {patterns : List (TokenKind × Pattern)}
    (hlongest : longestOf text patterns = none) :
    ∀ entry ∈ patterns, entry.2.longest text = none := by
  induction patterns with
  | nil => simp
  | cons entry patterns ih =>
    rw [longestOf] at hlongest
    cases hentry : entry.2.longest text with
    | none =>
      simp only [hentry] at hlongest
      exact List.forall_mem_cons.mpr ⟨hentry, ih hlongest⟩
    | some reach =>
      cases hrest : longestOf text patterns with
      | none => simp [hentry, hrest] at hlongest
      | some best =>
        simp only [hentry, hrest] at hlongest
        split at hlongest <;> cases hlongest

/-- The longest beginning is that of one of the patterns, and none of them reaches further. -/
theorem longestOf_eq_some {text : List Char} {patterns : List (TokenKind × Pattern)}
    {kind : TokenKind} {length : Nat} (hlongest : longestOf text patterns = some (kind, length)) :
    (∃ pattern, (kind, pattern) ∈ patterns ∧ pattern.longest text = some length) ∧
      ∀ entry ∈ patterns, ∀ reach, entry.2.longest text = some reach → reach ≤ length := by
  induction patterns generalizing kind length with
  | nil => cases hlongest
  | cons entry patterns ih =>
    obtain ⟨first, pattern⟩ := entry
    rw [longestOf] at hlongest
    cases hentry : pattern.longest text with
    | none =>
      simp only [hentry] at hlongest
      obtain ⟨⟨found, hmem, hfound⟩, hmost⟩ := ih hlongest
      refine ⟨⟨found, List.mem_cons_of_mem _ hmem, hfound⟩,
        List.forall_mem_cons.mpr ⟨fun reach hreach => ?_, hmost⟩⟩
      rw [hentry] at hreach
      cases hreach
    | some reach =>
      have hself : ∀ other, pattern.longest text = some other → other = reach := by
        intro other hother
        exact Option.some.inj (hother.symm.trans hentry)
      simp only [hentry] at hlongest
      cases hrest : longestOf text patterns with
      | none =>
        simp only [hrest] at hlongest
        cases hlongest
        refine ⟨⟨pattern, List.mem_cons_self, hentry⟩, List.forall_mem_cons.mpr ⟨?_, ?_⟩⟩
        · exact fun other hother => Nat.le_of_eq (hself other hother)
        · intro entry hmem other hother
          rw [longestOf_eq_none hrest entry hmem] at hother
          cases hother
      | some best =>
        obtain ⟨⟨found, hmem, hfound⟩, hmost⟩ := ih hrest
        simp only [hrest] at hlongest
        split at hlongest
        · next hle =>
          cases hlongest
          refine ⟨⟨pattern, List.mem_cons_self, hentry⟩, List.forall_mem_cons.mpr ⟨?_, ?_⟩⟩
          · exact fun other hother => Nat.le_of_eq (hself other hother)
          · exact fun entry hmem other hother => Nat.le_trans (hmost entry hmem other hother) hle
        · next hlt =>
          cases hlongest
          refine ⟨⟨found, List.mem_cons_of_mem _ hmem, hfound⟩,
            List.forall_mem_cons.mpr ⟨?_, hmost⟩⟩
          intro other hother
          rw [hself other hother]
          exact Nat.le_of_lt (Nat.not_le.mp hlt)

/-- A pattern that takes all of a text is preferred to those behind it. -/
theorem longestOf_append_cons {text : List Char} {before after : List (TokenKind × Pattern)}
    {kind : TokenKind} {pattern : Pattern}
    (hbefore : ∀ entry ∈ before, entry.2.longest text = none)
    (hwhole : pattern.longest text = some text.length) :
    longestOf text (before ++ (kind, pattern) :: after) = some (kind, text.length) := by
  induction before with
  | nil =>
    rw [List.nil_append, longestOf, hwhole]
    cases hafter : longestOf text after with
    | none => rfl
    | some best =>
      obtain ⟨⟨found, -, hreach⟩, -⟩ := longestOf_eq_some hafter
      exact if_pos (longest_eq_some_iff.mp hreach).1
  | cons entry before ih =>
    obtain ⟨hentry, hrest⟩ := List.forall_mem_cons.mp hbefore
    rw [List.cons_append, longestOf, hentry, ih hrest]

end TokenPattern

end ODataOptions
