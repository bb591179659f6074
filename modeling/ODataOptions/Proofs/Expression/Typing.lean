import ODataOptions.Expression.Scope

/-!
# Well-typed expressions

A reference judgement for the classes of expressions, one rule for each form.  An operand fits where
a class is asked for if it is of that class or of unknown class.
-/

namespace ODataOptions

namespace ExpressionType

/-- A value of the class fits where the expected class is asked for. -/
def Suits (type expected : ExpressionType) : Prop := type = expected ∨ type = .untyped

def Comparable (left right : ExpressionType) : Prop :=
  left = .untyped ∨ right = .untyped ∨ (left = right ∧ left ≠ .structured)

theorem accepts_iff {type expected : ExpressionType} :
    type.accepts expected = true ↔ type.Suits expected := by
  simp [accepts, Suits]

theorem comparable_iff {left right : ExpressionType} :
    left.comparable right = true ↔ left.Comparable right := by
  simp [comparable, Comparable, or_assoc]

end ExpressionType

def Literal.type : Literal → ExpressionType
  | .null => .untyped
  | .boolean _ => .boolean
  | .integer _ | .decimal _ => .numeric
  | .string _ => .string
  | .date _ | .dateTimeOffset _ => .temporal
  | .guid _ => .guid

namespace Member

/-- A member that a path may take at the type `owner`: the property of its name, or where there is
none the navigation property of its name, which must lead to a single entity. -/
inductive Resolves (schema : Schema) (owner : StructuredType) : Member → Prop
  | property {property : Property}
      (hfound : schema.property? owner property.name = some property) :
      Resolves schema owner (.property property)
  | navigation {navigation : Navigation}
      (hfree : schema.property? owner navigation.name = none)
      (hfound : schema.navigation? owner navigation.name = some navigation)
      (hsingle : navigation.collection = false) :
      Resolves schema owner (.navigation navigation)

/-- A path from the type `owner` and the member that it ends with.  It goes on only behind a member
with a single value of structured type, and from that type. -/
inductive PathResolves (schema : Schema) : StructuredType → List Member → Member → Prop
  | last {owner : StructuredType} {member : Member} (hmember : Resolves schema owner member) :
      PathResolves schema owner [member] member
  | step {owner type : StructuredType} {member last : Member} {path : List Member}
      (hmember : Resolves schema owner member) (hsingle : member.collection = false)
      (htype : member.type? = some type) (hpath : PathResolves schema type path last) :
      PathResolves schema owner (member :: path) last

variable {schema : Schema} {owner : StructuredType} {path : List Member} {last : Member}

theorem PathResolves.exists_cons (hpath : PathResolves schema owner path last) :
    ∃ first rest, path = first :: rest := by
  cases hpath <;> exact ⟨_, _, rfl⟩

/-- The member that a path resolves to is its last one. -/
theorem PathResolves.getLast?_eq (hpath : PathResolves schema owner path last) :
    path.getLast? = some last := by
  induction hpath with
  | last => rfl
  | @step _ _ member _ path _ _ _ hrest ih =>
    cases path with
    | nil => cases hrest
    | cons next path => rw [List.getLast?_cons_cons, ih]

end Member

namespace Expression

variable (scope : Scope) (owner : StructuredType)

mutual

/-- The expression is well typed where names are resolved from the type `owner`, and its value is of
the class. -/
inductive HasType : Expression → ExpressionType → Prop
  | literal (value : Literal) : HasType (.literal value) value.type
  | member {path : List Member} {last : Member}
      (hpath : Member.PathResolves scope.schema owner path last) :
      HasType (.member path) (.ofMember last)
  | parameter (name : String) : HasType (.parameter name) (scope.parameterType name)
  | not {operand : Expression} {type : ExpressionType} (hoperand : HasType operand type)
      (hsuits : type.Suits .boolean) : HasType (.not operand) .boolean
  | logical {operator : BinaryOperator} {left right : Expression}
      {leftType rightType : ExpressionType} (hoperator : operator ∈ [.or, .and])
      (hleft : HasType left leftType) (hright : HasType right rightType)
      (hleftSuits : leftType.Suits .boolean) (hrightSuits : rightType.Suits .boolean) :
      HasType (.binary operator left right) .boolean
  | equality {operator : BinaryOperator} {left right : Expression}
      {leftType rightType : ExpressionType} (hoperator : operator ∈ [.eq, .ne])
      (hleft : HasType left leftType) (hright : HasType right rightType)
      (hcomparable : leftType.Comparable rightType) :
      HasType (.binary operator left right) .boolean
  | ordering {operator : BinaryOperator} {left right : Expression}
      {leftType rightType : ExpressionType} (hoperator : operator ∈ [.gt, .ge, .lt, .le])
      (hleft : HasType left leftType) (hright : HasType right rightType)
      (hcomparable : leftType.Comparable rightType)
      (hleftPlain : leftType ≠ .structured) (hrightPlain : rightType ≠ .structured) :
      HasType (.binary operator left right) .boolean
  | arithmetic {operator : BinaryOperator} {left right : Expression}
      {leftType rightType : ExpressionType} (hoperator : operator ∈ [.add, .sub, .mul, .div, .mod])
      (hleft : HasType left leftType) (hright : HasType right rightType)
      (hleftSuits : leftType.Suits .numeric) (hrightSuits : rightType.Suits .numeric) :
      HasType (.binary operator left right) .numeric
  | call {method : Method} {arguments : List Expression} {types : List ExpressionType}
      (harguments : HaveTypes arguments types)
      (hleast : method.signature.required ≤ arguments.length)
      (hmost : arguments.length ≤ method.signature.parameters.length)
      (hsuit : ∀ pair ∈ types.zip method.signature.parameters, pair.1.Suits pair.2) :
      HasType (.call method arguments) method.signature.result

/-- The expressions are well typed, and their values are of the classes in turn. -/
inductive HaveTypes : List Expression → List ExpressionType → Prop
  | nil : HaveTypes [] []
  | cons {expression : Expression} {type : ExpressionType} {expressions : List Expression}
      {types : List ExpressionType} (hfirst : HasType expression type)
      (hrest : HaveTypes expressions types) :
      HaveTypes (expression :: expressions) (type :: types)

end

variable {scope owner}

/-- The class of an operation is determined by its operator. -/
theorem HasType.eq_of_binary {operator : BinaryOperator} {left right : Expression}
    {type : ExpressionType} (htype : HasType scope owner (.binary operator left right) type) :
    type = if operator ∈ [.add, .sub, .mul, .div, .mod] then .numeric else .boolean := by
  cases htype with
  | logical hoperator =>
    have hother : ∀ operator ∈ [BinaryOperator.or, .and],
        operator ∉ [BinaryOperator.add, .sub, .mul, .div, .mod] := by decide
    rw [if_neg (hother _ hoperator)]
  | equality hoperator =>
    have hother : ∀ operator ∈ [BinaryOperator.eq, .ne],
        operator ∉ [BinaryOperator.add, .sub, .mul, .div, .mod] := by decide
    rw [if_neg (hother _ hoperator)]
  | ordering hoperator =>
    have hother : ∀ operator ∈ [BinaryOperator.gt, .ge, .lt, .le],
        operator ∉ [BinaryOperator.add, .sub, .mul, .div, .mod] := by decide
    rw [if_neg (hother _ hoperator)]
  | arithmetic hoperator => rw [if_pos hoperator]

/-- The operands of a well-typed operation are well typed. -/
theorem HasType.exists_types {operator : BinaryOperator} {left right : Expression}
    {type : ExpressionType} (htype : HasType scope owner (.binary operator left right) type) :
    ∃ leftType rightType, HasType scope owner left leftType ∧ HasType scope owner right rightType := by
  cases htype with
  | logical _ hleft hright => exact ⟨_, _, hleft, hright⟩
  | equality _ hleft hright => exact ⟨_, _, hleft, hright⟩
  | ordering _ hleft hright => exact ⟨_, _, hleft, hright⟩
  | arithmetic _ hleft hright => exact ⟨_, _, hleft, hright⟩

theorem HaveTypes.exists_type {expression : Expression} {expressions : List Expression}
    {types : List ExpressionType} (htypes : HaveTypes scope owner expressions types)
    (hmem : expression ∈ expressions) : ∃ type, HasType scope owner expression type := by
  induction expressions generalizing types with
  | nil => cases hmem
  | cons first expressions ih =>
    cases htypes with
    | cons hfirst hrest =>
      rcases List.mem_cons.mp hmem with rfl | hmem
      · exact ⟨_, hfirst⟩
      · exact ih hrest hmem

/-- The arguments of a well-typed call are well typed. -/
theorem HasType.exists_type_argument {method : Method} {arguments : List Expression}
    {type : ExpressionType} (htype : HasType scope owner (.call method arguments) type) :
    ∀ argument ∈ arguments, ∃ type, HasType scope owner argument type := by
  cases htype with
  | call harguments =>
    intro argument hmem
    exact harguments.exists_type hmem

/-- The judgement assigns at most one class to an expression. -/
theorem HasType.unique {expression : Expression} {type other : ExpressionType}
    (htype : HasType scope owner expression type) (hother : HasType scope owner expression other) :
    other = type := by
  cases expression with
  | literal => cases htype; cases hother; rfl
  | member =>
    cases htype with
    | member hpath =>
      cases hother with
      | member hpath' =>
        have hlast := hpath.getLast?_eq.symm.trans hpath'.getLast?_eq
        rw [Option.some.inj hlast]
  | parameter => cases htype; cases hother; rfl
  | not => cases htype; cases hother; rfl
  | binary => rw [htype.eq_of_binary, hother.eq_of_binary]
  | call => cases htype; cases hother; rfl

theorem HaveTypes.unique {expressions : List Expression} {types others : List ExpressionType}
    (htypes : HaveTypes scope owner expressions types)
    (hothers : HaveTypes scope owner expressions others) : others = types := by
  induction expressions generalizing types others with
  | nil => cases htypes; cases hothers; rfl
  | cons expression expressions ih =>
    cases htypes with
    | cons hfirst hrest =>
      cases hothers with
      | cons hfirst' hrest' => rw [hfirst.unique hfirst', ih hrest hrest']

end Expression

end ODataOptions
