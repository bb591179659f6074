import ODataOptions.Expression.Parser
import ODataOptions.Proofs.Expression.Typing
import ODataOptions.Proofs.Fault

/-!
# Checks of operands and the typing judgement

The checks that the parser makes when it builds an operation or a call pass exactly where the
judgement types the result, provided that it types the parts.
-/

namespace ODataOptions

namespace TypedExpression

variable {left right operand : TypedExpression} {operator : BinaryOperator}
  {expected type : ExpressionType} {name : String}

theorem require_eq_ok_iff {result : Unit} :
    operand.require name expected = .ok result ↔ operand.type.Suits expected := by
  rw [← ExpressionType.accepts_iff, require]
  split <;> simp_all

theorem requirePrimitive_eq_ok_iff {result : Unit} :
    operand.requirePrimitive name = .ok result ↔ operand.type ≠ .structured := by
  rw [requirePrimitive]
  split <;> simp_all

theorem requireComparable_eq_ok_iff {result : Unit} :
    requireComparable operator left right = .ok result ↔ left.type.Comparable right.type := by
  rw [← ExpressionType.comparable_iff, requireComparable]
  split <;> simp_all

/-- Logical and arithmetic operators ask the same class of both operands. -/
theorem requireBoth_eq_ok_iff {result : ExpressionType} :
    (do left.require name expected
        right.require name expected
        return result : Except Fault ExpressionType) = .ok type ↔
      left.type.Suits expected ∧ right.type.Suits expected ∧ result = type := by
  simp [Fault.bind_eq_ok_iff, require_eq_ok_iff, pure, Except.pure]

/-- Values are ordered only if they can be compared and neither is structured. -/
theorem requireOrder_eq_ok_iff {result : ExpressionType} :
    (do requireComparable operator left right
        left.requirePrimitive name
        right.requirePrimitive name
        return result : Except Fault ExpressionType) = .ok type ↔
      left.type.Comparable right.type ∧ left.type ≠ .structured ∧ right.type ≠ .structured ∧
        result = type := by
  simp [Fault.bind_eq_ok_iff, requireComparable_eq_ok_iff, requirePrimitive_eq_ok_iff, pure, Except.pure]

/-- Structured values may be told equal or different. -/
theorem requireEquality_eq_ok_iff {result : ExpressionType} :
    (do requireComparable operator left right
        return result : Except Fault ExpressionType) = .ok type ↔
      left.type.Comparable right.type ∧ result = type := by
  simp [Fault.bind_eq_ok_iff, requireComparable_eq_ok_iff, pure, Except.pure]

section Judgement

variable {scope : Scope} {owner : StructuredType}

/-- An operation on well-typed operands passes the checks exactly if it is well typed itself, and its
class is the one that is computed. -/
theorem operationType_eq_ok_iff (hleft : Expression.HasType scope owner left.expression left.type)
    (hright : Expression.HasType scope owner right.expression right.type) :
    operationType operator left right = .ok type ↔
      Expression.HasType scope owner (.binary operator left.expression right.expression) type := by
  constructor
  · intro hchecks
    cases operator with
    | or | and =>
      obtain ⟨hl, hr, rfl⟩ := requireBoth_eq_ok_iff.mp hchecks
      exact .logical (by decide) hleft hright hl hr
    | eq | ne =>
      obtain ⟨hcomparable, rfl⟩ := requireEquality_eq_ok_iff.mp hchecks
      exact .equality (by decide) hleft hright hcomparable
    | gt | ge | lt | le =>
      obtain ⟨hcomparable, hl, hr, rfl⟩ := requireOrder_eq_ok_iff.mp hchecks
      exact .ordering (by decide) hleft hright hcomparable hl hr
    | add | sub | mul | div | mod =>
      obtain ⟨hl, hr, rfl⟩ := requireBoth_eq_ok_iff.mp hchecks
      exact .arithmetic (by decide) hleft hright hl hr
  · intro htype
    cases htype with
    | logical hoperator hl hr hleftSuits hrightSuits =>
      rw [hleft.unique hl] at hleftSuits
      rw [hright.unique hr] at hrightSuits
      simp only [List.mem_cons, List.not_mem_nil, or_false] at hoperator
      rcases hoperator with rfl | rfl <;>
        exact requireBoth_eq_ok_iff.mpr ⟨hleftSuits, hrightSuits, rfl⟩
    | equality hoperator hl hr hcomparable =>
      rw [hleft.unique hl, hright.unique hr] at hcomparable
      simp only [List.mem_cons, List.not_mem_nil, or_false] at hoperator
      rcases hoperator with rfl | rfl <;>
        exact requireEquality_eq_ok_iff.mpr ⟨hcomparable, rfl⟩
    | ordering hoperator hl hr hcomparable hleftPlain hrightPlain =>
      rw [hleft.unique hl, hright.unique hr] at hcomparable
      rw [hleft.unique hl] at hleftPlain
      rw [hright.unique hr] at hrightPlain
      simp only [List.mem_cons, List.not_mem_nil, or_false] at hoperator
      rcases hoperator with rfl | rfl | rfl | rfl <;>
        exact requireOrder_eq_ok_iff.mpr ⟨hcomparable, hleftPlain, hrightPlain, rfl⟩
    | arithmetic hoperator hl hr hleftSuits hrightSuits =>
      rw [hleft.unique hl] at hleftSuits
      rw [hright.unique hr] at hrightSuits
      simp only [List.mem_cons, List.not_mem_nil, or_false] at hoperator
      rcases hoperator with rfl | rfl | rfl | rfl | rfl <;>
        exact requireBoth_eq_ok_iff.mpr ⟨hleftSuits, hrightSuits, rfl⟩

/-! ### Calls -/

theorem requireArguments_eq_ok_iff {method : Method} {arguments : List TypedExpression}
    {parameters : List ExpressionType} {result : Unit} :
    requireArguments method arguments parameters = .ok result ↔
      ∀ pair ∈ (arguments.map TypedExpression.type).zip parameters, pair.1.Suits pair.2 := by
  induction arguments generalizing parameters with
  | nil => simp [requireArguments]
  | cons argument arguments ih =>
    cases parameters with
    | nil => simp [requireArguments]
    | cons parameter parameters =>
      rw [requireArguments, Fault.bind_eq_ok_iff]
      simp only [require_eq_ok_iff, ih, List.map_cons, List.zip_cons_cons, List.forall_mem_cons]
      constructor
      · rintro ⟨_, hfirst, hrest⟩
        exact ⟨hfirst, hrest⟩
      · rintro ⟨hfirst, hrest⟩
        exact ⟨(), hfirst, hrest⟩

theorem haveTypes_map {arguments : List TypedExpression}
    (harguments : ∀ argument ∈ arguments,
      Expression.HasType scope owner argument.expression argument.type) :
    Expression.HaveTypes scope owner (arguments.map expression)
      (arguments.map TypedExpression.type) := by
  induction arguments with
  | nil => exact .nil
  | cons argument arguments ih =>
    obtain ⟨hfirst, hrest⟩ := List.forall_mem_cons.mp harguments
    exact .cons hfirst (ih hrest)

/-- A call of well-typed arguments passes the checks exactly if it is well typed itself. -/
theorem call_eq_ok_iff {method : Method} {arguments : List TypedExpression} {span : Span}
    {typed : TypedExpression}
    (harguments : ∀ argument ∈ arguments,
      Expression.HasType scope owner argument.expression argument.type) :
    call method arguments span = .ok typed ↔
      Expression.HasType scope owner (.call method (arguments.map expression))
        method.signature.result ∧
      typed = ⟨.call method (arguments.map expression), method.signature.result, span⟩ := by
  have htypes := haveTypes_map harguments
  have hadmits : method.signature.admits arguments.length = true ↔
      method.signature.required ≤ arguments.length ∧
        arguments.length ≤ method.signature.parameters.length := by
    simp [Signature.admits]
  rw [call]
  constructor
  · intro hchecks
    split at hchecks
    · next hcount =>
      obtain ⟨hleast, hmost⟩ := hadmits.mp hcount
      obtain ⟨_, hsuit, hresult⟩ := Fault.bind_eq_ok_iff.mp hchecks
      cases hresult
      refine ⟨.call htypes ?_ ?_ (requireArguments_eq_ok_iff.mp hsuit), rfl⟩
      · rw [List.length_map]; exact hleast
      · rw [List.length_map]; exact hmost
    · cases hchecks
  · rintro ⟨htype, rfl⟩
    cases htype with
    | call htypes' hleast hmost hsuit =>
      rw [htypes.unique htypes'] at hsuit
      rw [List.length_map] at hleast hmost
      rw [if_pos (hadmits.mpr ⟨hleast, hmost⟩)]
      exact Fault.bind_eq_ok_iff.mpr ⟨(), requireArguments_eq_ok_iff.mpr hsuit, rfl⟩

end Judgement

end TypedExpression

end ODataOptions
