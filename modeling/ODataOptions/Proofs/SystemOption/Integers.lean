import ODataOptions.Proofs.Expression.Inlining
import ODataOptions.Proofs.Parser.Whole
import ODataOptions.Proofs.SystemOption.Completeness
import ODataOptions.Proofs.Text.Decimal

/-!
# Integers are read exactly

Integers are read in two places.  The value of an option has no sign and fits 32 bits, and a literal
in an expression has a sign or none and fits 64 bits.  A numeral of any length is read there as the
number that it stands for, or not at all.  The number is printed as a numeral that is read as the
same number.
-/

namespace ODataOptions

open ODataOptions.Parser

namespace Numeral

variable (numeral : Numeral)

/-- A number without a sign that fits 32 bits, and is not zero unless that is allowed. -/
def FitsOption (zeroAllowed : Bool) : Prop :=
  numeral.negative = false ∧ numeral.digits ≠ [] ∧ numeral.magnitude < 2 ^ 32 ∧
    (0 < numeral.magnitude ∨ zeroAllowed = true)

/-- A number that fits 64 bits, one of which is for the sign. -/
def FitsLiteral : Prop :=
  numeral.digits ≠ [] ∧ -2 ^ 63 ≤ numeral.value ∧ numeral.value < 2 ^ 63

instance (zeroAllowed : Bool) : Decidable (numeral.FitsOption zeroAllowed) :=
  inferInstanceAs (Decidable (_ ∧ _))

instance : Decidable numeral.FitsLiteral := inferInstanceAs (Decidable (_ ∧ _))

/-- The bounds of an option are those of 32 bits without a sign. -/
theorem admitsNumber_iff (zeroAllowed : Bool) :
    admitsNumber zeroAllowed numeral.magnitude = true ↔
      numeral.magnitude < 2 ^ 32 ∧ (0 < numeral.magnitude ∨ zeroAllowed = true) := by
  simp [admitsNumber, UInt32.size, or_comm]

/-- The bounds of a literal are those of 64 bits with a sign. -/
theorem inRange_iff :
    Literal.inRange numeral.value = true ↔ -2 ^ 63 ≤ numeral.value ∧ numeral.value < 2 ^ 63 := by
  have hleast : Int64.minValue.toInt = -2 ^ 63 := rfl
  have hmost : Int64.maxValue.toInt = 2 ^ 63 - 1 := rfl
  rw [Literal.inRange, hleast, hmost, Bool.and_eq_true, decide_eq_true_eq, decide_eq_true_eq,
    Int.le_sub_one_iff]

theorem filter_natural?_text (zeroAllowed : Bool) :
    (Text.natural? numeral.text).filter (admitsNumber zeroAllowed) =
      if numeral.FitsOption zeroAllowed then some numeral.magnitude else none := by
  rw [natural?_text]
  split
  · next hunread =>
    rw [if_neg fun hfits => hunread.elim (by simp [hfits.1]) hfits.2.1]
    rfl
  · next hread =>
    obtain ⟨hsign, hdigits⟩ := not_or.mp hread
    have hadmits : admitsNumber zeroAllowed numeral.magnitude = true ↔ numeral.FitsOption zeroAllowed := by
      simp [admitsNumber_iff, FitsOption, hsign, hdigits]
    rw [Option.filter, ite_congr (propext hadmits) (fun _ => rfl) fun _ => rfl]

theorem filter_integer?_text :
    (Text.integer? numeral.text).filter Literal.inRange =
      if numeral.FitsLiteral then some numeral.value else none := by
  rw [integer?_text]
  split
  · next hdigits =>
    rw [if_neg fun hfits => hfits.1 hdigits]
    rfl
  · next hdigits =>
    have hrange : Literal.inRange numeral.value = true ↔ numeral.FitsLiteral := by
      simp [inRange_iff, FitsLiteral, hdigits]
    rw [Option.filter, ite_congr (propext hrange) (fun _ => rfl) fun _ => rfl]

end Numeral

/-! ## Numerals at a cursor -/

section Cursor

variable {numeral : Numeral} {cursor : Cursor} (hkind : cursor.current.kind = .integer)
  (htext : cursor.current.text = numeral.text)

include hkind htext

/-- The value of an option is that of the numeral, or none. -/
theorem Parser.wholeNumber_numeral (option : String) (zeroAllowed : Bool) :
    wholeNumber option zeroAllowed cursor =
      if numeral.FitsOption zeroAllowed then .ok numeral.magnitude cursor.advance
      else .error { problem := .wrongValue option numeral.text, span := cursor.current.span }
        cursor.advance := by
  have hisA : cursor.current.isA .integer = true := (Token.isA_iff_kind_eq rfl).mpr hkind
  rw [wholeNumber, bind_run, expect_run, if_pos hisA]
  dsimp only
  rw [htext, numeral.filter_natural?_text]
  split <;> rfl

/-- A literal is the number that the numeral stands for, or none. -/
theorem Literal.ofToken_numeral :
    Literal.ofToken cursor.current =
      if numeral.FitsLiteral then .ok (.integer numeral.value)
      else .error { problem := .integerOutOfRange numeral.text, span := cursor.current.span } := by
  rw [Literal.ofToken, hkind]
  dsimp only
  rw [htext, numeral.filter_integer?_text]
  by_cases hfits : numeral.FitsLiteral
  · rw [if_pos hfits, if_pos hfits]
  · rw [if_neg hfits, if_neg hfits]

theorem Expression.Grammar.primary_numeral (scope : Scope) (owner : StructuredType)
    (inner : Expression.Grammar) :
    primary scope owner inner cursor =
      if numeral.FitsLiteral then
        .ok ⟨.literal (.integer numeral.value), .numeric, cursor.current.span⟩ cursor.advance
      else .error { problem := .integerOutOfRange numeral.text, span := cursor.current.span }
        cursor.advance := by
  have htype : ExpressionType.ofToken cursor.current = .numeric := by
    rw [ExpressionType.ofToken, hkind]
  have hliteral : cursor.current.kind ∈ literalKinds := by
    rw [hkind]
    decide
  rw [primary_eq_literal hliteral, literal_run, Literal.ofToken_numeral hkind htext, htype]
  by_cases hfits : numeral.FitsLiteral
  · rw [if_pos hfits, if_pos hfits]
  · rw [if_neg hfits, if_neg hfits]

end Cursor

/-! ## Printed integers -/

/-- The value of an option is printed as it is read. -/
theorem Parser.wholeNumber_toString {zeroAllowed : Bool} {value : Nat}
    (hadmits : admitsNumber zeroAllowed value = true) (option : String) (kind : OptionKind) :
    (complete kind (wholeNumber option zeroAllowed)).onText (toString value) = .ok value := by
  obtain ⟨_, hrun, rfl⟩ :=
    (reads_wholeNumber option hadmits).exists_onText trivial (writes_number value).written kind
  exact hrun

/-- A literal is printed as it is read. -/
theorem Expression.exists_parse_integer {value : Int} (hrange : Literal.inRange value = true)
    (scope : Scope) (owner : StructuredType) (kind : OptionKind) :
    ∃ typed,
      (complete kind (Expression.parse scope owner)).onText
          (Expression.literal (.integer value)).print = .ok typed ∧
        typed.expression = .literal (.integer value) ∧ typed.type = .numeric := by
  have hspelled : (Expression.literal (.integer value)).Spelled Word.IsToken := hrange
  have htype : HasType scope owner (.literal (.integer value)) .numeric := .literal (.integer value)
  have hfits : (Expression.literal (.integer value)).Fits scope.limits.expressionDepth :=
    ⟨Nat.zero_le _, trivial⟩
  have hreads := reads_parse hspelled htype id fun _ hword => Word.EndsItem.ends (.inr hword)
  obtain ⟨typed, hrun, hexpression, hread⟩ := hreads.exists_onText hfits (writes hspelled).written kind
  exact ⟨typed, hrun, hexpression, htype.unique hread⟩

/-- Wherever a numeral is read, the value is exact.  The value of an option is the number that the
digits stand for if there is no minus, the number fits 32 bits, and it is not zero or zero is allowed;
otherwise the numeral is reported as a wrong value.  A literal is the number with its sign if it fits 64
bits, and an error otherwise.  What was read is printed as a text that is read as the same value.
A numeral that has digits is one integer token, so there is such a cursor for each of them. -/
theorem integers_exact (numeral : Numeral) (option : String) (zeroAllowed : Bool) (scope : Scope)
    (owner : StructuredType) (inner : Expression.Grammar) (cursor : Cursor)
    (hkind : cursor.current.kind = .integer) (htext : cursor.current.text = numeral.text) :
    (numeral.digits ≠ [] → Word.IsToken ⟨.integer, numeral.text⟩) ∧
    (∃ fault, fault.key = .wrongValue ∧ fault.span = cursor.current.span ∧
      fault.parameters = [option, numeral.text] ∧
      wholeNumber option zeroAllowed cursor =
        if numeral.FitsOption zeroAllowed then .ok numeral.magnitude cursor.advance
        else .error fault cursor.advance) ∧
    (∃ fault, fault.key = .grammar ∧ fault.span = cursor.current.span ∧
      Expression.Grammar.primary scope owner inner cursor =
        if numeral.FitsLiteral then
          .ok ⟨.literal (.integer numeral.value), .numeric, cursor.current.span⟩ cursor.advance
        else .error fault cursor.advance) ∧
    (∀ value rest, wholeNumber option zeroAllowed cursor = .ok value rest →
      ∀ text ∈ [(SystemOption.top value).printValue, (SystemOption.skip value).printValue,
          (Levels.depth value).print],
        ∀ kind, (complete kind (wholeNumber option zeroAllowed)).onText text = .ok value) ∧
    (∀ typed rest, Expression.Grammar.primary scope owner inner cursor = .ok typed rest →
      ∀ kind, ∃ again,
        (complete kind (Expression.parse scope owner)).onText typed.expression.print = .ok again ∧
          again.expression = typed.expression ∧ again.type = typed.type) := by
  have hnumber := wholeNumber_numeral hkind htext option zeroAllowed
  have hprimary := Expression.Grammar.primary_numeral hkind htext scope owner inner
  refine ⟨numeral.isToken_text, ⟨_, rfl, rfl, rfl, hnumber⟩, ⟨_, rfl, rfl, hprimary⟩, ?_, ?_⟩
  · intro value rest hrun text hprinted kind
    rw [hnumber] at hrun
    split at hrun
    · next hfits =>
      cases hrun
      have hadmits := (numeral.admitsNumber_iff zeroAllowed).mpr hfits.2.2
      simp only [List.mem_cons, List.not_mem_nil, or_false] at hprinted
      rcases hprinted with rfl | rfl | rfl <;> exact wholeNumber_toString hadmits option kind
    · cases hrun
  · intro typed rest hrun kind
    rw [hprimary] at hrun
    split at hrun
    · next hfits =>
      cases hrun
      exact Expression.exists_parse_integer (numeral.inRange_iff.mpr hfits.2) scope owner kind
    · cases hrun

/-- The greatest number of 32 bits, behind a zero. -/
theorem integers_exact_greatest :
    ∃ (numeral : Numeral) (cursor : Cursor),
      numeral.text = "04294967295" ∧ cursor.current.kind = .integer ∧
        cursor.current.text = numeral.text ∧
        wholeNumber "$top" false cursor = .ok 4294967295 cursor.advance ∧
        (complete .top (wholeNumber "$top" false)).onText "4294967295" = .ok 4294967295 := by
  let numeral : Numeral := ⟨false, [0, 4, 2, 9, 4, 9, 6, 7, 2, 9, 5]⟩
  let cursor : Cursor := .ofTokens [⟨.integer, "04294967295", ⟨0, 11⟩⟩]
  have htext : numeral.text = "04294967295" := rfl
  obtain ⟨-, ⟨_, -, -, -, hrun⟩, -, hprinted, -⟩ :=
    integers_exact numeral "$top" false { schema := .shop } .shopCustomer
      (.ofLevels { schema := .shop } .shopCustomer 0) cursor rfl htext.symm
  rw [if_pos (by decide)] at hrun
  have hagain := hprinted 4294967295 cursor.advance hrun "4294967295" (by decide +kernel) .top
  exact ⟨numeral, cursor, htext, rfl, htext.symm, hrun, hagain⟩

end ODataOptions
