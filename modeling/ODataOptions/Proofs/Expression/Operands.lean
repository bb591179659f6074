import ODataOptions.Proofs.Expression.Precedence
import ODataOptions.Proofs.Expression.Mirrors
import ODataOptions.Proofs.Parser.Leads
import ODataOptions.Proofs.Parser.Stretches

/-!
# Operands in faults

A fault that tells the class of an operand points at the whole of it.  A left operand begins where its
operation does, and goes on up to the operator.  A right one is parsed behind the operator, and an argument
between parentheses and commas of its call.
-/

namespace ODataOptions

open ODataOptions.Parser

/-- An operand of the precedence may begin behind the token: an opening parenthesis, a comma, or an operator
that binds its operands less tightly. -/
inductive Precedence.BeginsBehind (precedence : Precedence) (token : Token) : Prop
  | openParen (hopening : token.isA .openParen = true)
  | comma (hcomma : token.isA .comma = true)
  | not (hnot : token.isWord "not" = true) (hle : negation ≤ precedence)
  | binary {operator : BinaryOperator} (hword : token.isWord operator.keyword = true)
      (hle : operator.precedence.tighter ≤ precedence)

theorem Precedence.le_tighter (precedence : Precedence) : precedence ≤ precedence.tighter := by
  cases precedence <;> decide

namespace Expression

/-- An operand of the precedence begins here, if parsing began at `start`: right there, or behind a token
that lets one begin. -/
def Begins (start : Cursor) (precedence : Precedence) (cursor : Cursor) : Prop :=
  cursor.tokens = start.tokens ∧ (cursor.position = start.position ∨
    ∃ token ∈ cursor.previous?, precedence.BeginsBehind token)

/-- An argument of the method begins here: behind the name and an opening parenthesis, or behind another
argument and a comma. -/
inductive BeginsArgument (argument : Parser TypedExpression) (method : Method) : Cursor → Prop
  | first {cursor : Cursor} (hname : cursor.current.isWord method.name = true)
      (hopening : cursor.advance.current.isA .openParen = true) :
      BeginsArgument argument method cursor.advance.advance
  | next {before behind : Cursor} {typed : TypedExpression}
      (hbefore : BeginsArgument argument method before) (hrun : argument before = .ok typed behind)
      (hcomma : behind.current.isA .comma = true) : BeginsArgument argument method behind.advance

/-- Between the cursors, `typed` is parsed as a whole operand of the operator or method of that name. -/
inductive Operand (scope : Scope) (owner : StructuredType) (start : Cursor) :
    String → Cursor → TypedExpression → Cursor → Prop
  | left {levels : Nat} {operator : BinaryOperator} {before behind : Cursor} {typed : TypedExpression}
      (hbefore : Begins start operator.precedence before)
      (hrun : Grammar.parser scope owner (.ofLevels scope owner levels) operator.precedence.tighter before =
        .ok typed behind)
      (hbehind : behind.current.isWord operator.keyword = true) :
      Operand scope owner start operator.keyword before typed behind
  | right {levels : Nat} {operator : BinaryOperator} {word behind : Cursor} {typed : TypedExpression}
      (hword : word.current.isWord operator.keyword = true)
      (hrun : Grammar.parser scope owner (.ofLevels scope owner levels) operator.precedence.tighter
        word.advance = .ok typed behind) :
      Operand scope owner start operator.keyword word.advance typed behind
  | negated {levels : Nat} {word behind : Cursor} {typed : TypedExpression}
      (hword : word.current.isWord "not" = true)
      (hrun : (Grammar.ofLevels scope owner levels).operand word.advance = .ok typed behind) :
      Operand scope owner start "not" word.advance typed behind
  | argument {levels : Nat} {method : Method} {before behind : Cursor} {typed : TypedExpression}
      (hbefore : BeginsArgument (Grammar.ofLevels scope owner levels).whole method before)
      (hrun : (Grammar.ofLevels scope owner levels).whole before = .ok typed behind)
      (hbehind : behind.current.isA .comma = true ∨ behind.current.isA .closeParen = true) :
      Operand scope owner start method.name before typed behind

end Expression

/-- If the fault reports operands, these are whole ones, and `Stands` holds from the first cursor to the
last one of them at the place that it points at. -/
def Fault.ReportsOperands (scope : Scope) (owner : StructuredType) (start : Cursor)
    (Stands : Cursor → Cursor → Span → Prop) (fault : Fault) : Prop :=
  match fault.problem with
  | .operandType operator operand _ found =>
    ∃ before typed behind, Expression.Operand scope owner start operator before typed behind ∧
      typed.expression = operand ∧ typed.type = found ∧ Stands before behind fault.span
  | .notComparable operator leftType rightType =>
    ∃ before left word right behind,
      Expression.Operand scope owner start operator.keyword before left word ∧
      Expression.Operand scope owner start operator.keyword word.advance right behind ∧
      left.type = leftType ∧ right.type = rightType ∧ Stands before behind fault.span
  | _ => True

theorem Fault.ReportsOperands.mono {scope : Scope} {owner : StructuredType} {start : Cursor}
    {Stands Stands' : Cursor → Cursor → Span → Prop} {fault : Fault}
    (hreports : fault.ReportsOperands scope owner start Stands)
    (himp : ∀ before behind span, Stands before behind span → Stands' before behind span) :
    fault.ReportsOperands scope owner start Stands' := by
  rw [ReportsOperands] at hreports ⊢
  split at hreports
  · obtain ⟨before, typed, behind, hoperand, hexpression, htype, hstands⟩ := hreports
    exact ⟨before, typed, behind, hoperand, hexpression, htype, himp _ _ _ hstands⟩
  · obtain ⟨before, left, word, right, behind, hleft, hright, hleftType, hrightType, hstands⟩ := hreports
    exact ⟨before, left, word, right, behind, hleft, hright, hleftType, hrightType, himp _ _ _ hstands⟩
  · trivial

/-- There is a stretch of the tokens of `start` between the cursors. -/
def Cursor.StretchOf (start before behind : Cursor) (span : Span) : Prop :=
  before.tokens = start.tokens ∧ before.Stretch behind span

/-! ## Faults of checks -/

/-- The class that both operands of a logical or arithmetic operator must have, and the result too. -/
def BinaryOperator.operandType? : BinaryOperator → Option ExpressionType
  | .or | .and => some .boolean
  | .add | .sub | .mul | .div | .mod => some .numeric
  | .eq | .ne | .gt | .ge | .lt | .le => none

namespace TypedExpression

variable {operand left right value : TypedExpression} {operator : BinaryOperator}
  {expected : ExpressionType} {fault : Fault}

/-- The fault is that the operand is not what the operator or method expects. -/
def Mismatched (operand : TypedExpression) (name : String) (fault : Fault) : Prop :=
  ∃ expected, fault =
    { problem := .operandType name operand.expression expected operand.type, span := operand.span }

theorem require_eq_error {name : String} (herror : operand.require name expected = .error fault) :
    operand.Mismatched name fault ∧ ¬ operand.type.Suits expected := by
  rw [require] at herror
  split at herror
  · cases herror
  · next hrejects =>
    cases herror
    exact ⟨⟨_, rfl⟩, fun hsuits => hrejects (ExpressionType.accepts_iff.mpr hsuits)⟩

theorem requirePrimitive_eq_error {name : String}
    (herror : operand.requirePrimitive name = .error fault) : operand.Mismatched name fault := by
  rw [requirePrimitive] at herror
  split at herror
  · cases herror
    exact ⟨_, rfl⟩
  · cases herror

theorem requireComparable_eq_error (herror : requireComparable operator left right = .error fault) :
    fault = { problem := .notComparable operator left.type right.type
              span := .cover left.span right.span } := by
  rw [requireComparable] at herror
  split at herror
  · cases herror
  · cases herror
    rfl

theorem requireArguments_eq_error {method : Method} {arguments : List TypedExpression}
    {parameters : List ExpressionType}
    (herror : requireArguments method arguments parameters = .error fault) :
    ∃ argument ∈ arguments, argument.Mismatched method.name fault := by
  induction arguments generalizing parameters with
  | nil => cases herror
  | cons argument arguments ih =>
    cases parameters with
    | nil => cases herror
    | cons parameter parameters =>
      rw [requireArguments] at herror
      rcases Fault.bind_eq_error_iff.mp herror with hfirst | ⟨_, -, hrest⟩
      · exact ⟨argument, List.mem_cons_self, (require_eq_error hfirst).1⟩
      · obtain ⟨other, hmem, hother⟩ := ih hrest
        exact ⟨other, List.mem_cons_of_mem argument hmem, hother⟩

/-- An operation stands from its left operand to its right one. -/
theorem binary_eq_ok (hbinary : binary operator left right = .ok value) :
    value.span = .cover left.span right.span ∧ ∀ type ∈ operator.operandType?, value.type = type := by
  obtain ⟨found, htype, hresult⟩ := Fault.bind_eq_ok_iff.mp hbinary
  cases hresult
  refine ⟨rfl, fun type hoperator => ?_⟩
  cases operator with
  | or | and | add | sub | mul | div | mod =>
    cases hoperator
    exact (requireBoth_eq_ok_iff.mp htype).2.2.symm
  | eq | ne | gt | ge | lt | le => cases hoperator

theorem requireBoth_eq_error
    (herror : (do
      left.require operator.keyword expected
      right.require operator.keyword expected
      return expected : Except Fault ExpressionType) = .error fault) :
    (left.Mismatched operator.keyword fault ∧ ¬ left.type.Suits expected) ∨
      right.Mismatched operator.keyword fault := by
  rcases Fault.bind_eq_error_iff.mp herror with hleft | ⟨_, -, herror⟩
  · exact .inl (require_eq_error hleft)
  · rcases Fault.bind_eq_error_iff.mp herror with hright | ⟨_, -, herror⟩
    · exact .inr (require_eq_error hright).1
    · cases herror

/-- An operation is refused for one of its operands, or because these cannot be compared. -/
theorem binary_eq_error (herror : binary operator left right = .error fault) :
    (left.Mismatched operator.keyword fault ∧ ∀ type ∈ operator.operandType?, ¬ left.type.Suits type) ∨
      right.Mismatched operator.keyword fault ∨
      (operator.operandType? = none ∧ fault =
        { problem := .notComparable operator left.type right.type
          span := .cover left.span right.span }) := by
  have htype : operationType operator left right = .error fault := by
    rcases Fault.bind_eq_error_iff.mp herror with htype | ⟨_, -, hpure⟩
    · exact htype
    · cases hpure
  cases operator with
  | or | and | add | sub | mul | div | mod =>
    rcases requireBoth_eq_error htype with ⟨hleft, hrejects⟩ | hright
    · refine .inl ⟨hleft, fun type hoperator => ?_⟩
      cases hoperator
      exact hrejects
    · exact .inr (.inl hright)
  | eq | ne =>
    rcases Fault.bind_eq_error_iff.mp htype with hboth | ⟨_, -, hpure⟩
    · exact .inr (.inr ⟨rfl, requireComparable_eq_error hboth⟩)
    · cases hpure
  | gt | ge | lt | le =>
    rcases Fault.bind_eq_error_iff.mp htype with hboth | ⟨_, -, hrest⟩
    · exact .inr (.inr ⟨rfl, requireComparable_eq_error hboth⟩)
    · rcases Fault.bind_eq_error_iff.mp hrest with hleft | ⟨_, -, hrest⟩
      · exact .inl ⟨requirePrimitive_eq_error hleft, nofun⟩
      · rcases Fault.bind_eq_error_iff.mp hrest with hright | ⟨_, -, hpure⟩
        · exact .inr (.inl (requirePrimitive_eq_error hright))
        · cases hpure

theorem span_of_call {method : Method} {arguments : List TypedExpression} {span : Span}
    (hcall : call method arguments span = .ok value) : value.span = span := by
  rw [call] at hcall
  split at hcall
  · obtain ⟨_, -, hresult⟩ := Fault.bind_eq_ok_iff.mp hcall
    cases hresult
    rfl
  · cases hcall

/-- A call is refused for the number of its arguments or for one of them. -/
theorem call_eq_error {method : Method} {arguments : List TypedExpression} {span : Span}
    (herror : call method arguments span = .error fault) :
    fault = { problem := .argumentCount method arguments.length, span } ∨
      ∃ argument ∈ arguments, argument.Mismatched method.name fault := by
  rw [call] at herror
  split at herror
  · rcases Fault.bind_eq_error_iff.mp herror with harguments | ⟨_, -, hpure⟩
    · exact .inr (requireArguments_eq_error harguments)
    · cases hpure
  · cases herror
    exact .inl rfl

section Operands

variable {scope : Scope} {owner : StructuredType} {start before word behind : Cursor} {name : String}

/-- A mismatch reports the operand at its own place. -/
theorem Mismatched.reportsOperands (hmismatched : operand.Mismatched name fault)
    (hoperand : Expression.Operand scope owner start name before operand behind)
    (hstretch : start.StretchOf before behind operand.span) :
    fault.ReportsOperands scope owner start start.StretchOf := by
  obtain ⟨expected, rfl⟩ := hmismatched
  exact ⟨before, operand, behind, hoperand, rfl, rfl, hstretch⟩

/-- An operation on whole operands, where only the left one of a chain may be something else. -/
theorem leads_binary {levels : Nat} (hbefore : Expression.Begins start operator.precedence before)
    (hleft : before.Stretch word left.span)
    (hword : word.current.isWord operator.keyword = true)
    (hright : word.advance.Stretch behind right.span)
    (hleftRun : Expression.Grammar.parser scope owner (.ofLevels scope owner levels)
      operator.precedence.tighter before = .ok left word ∨ ∃ type ∈ operator.operandType?, left.type = type)
    (hrightRun : Expression.Grammar.parser scope owner (.ofLevels scope owner levels)
      operator.precedence.tighter word.advance = .ok right behind) :
    Leads behind (ofExcept (binary operator left right))
      (fun value rest => before.Stretch rest value.span ∧ ∀ type ∈ operator.operandType?, value.type = type)
      (Fault.ReportsOperands scope owner start start.StretchOf) := by
  have hcover := hleft.cover (Cursor.reaches_advance word) hright
  have htokens : word.advance.tokens = start.tokens := by
    rw [Cursor.tokens_advance, hleft.tokens_eq, hbefore.1]
  have hleftOperand (hrejects : ∀ type ∈ operator.operandType?, ¬ left.type.Suits type) :
      Expression.Operand scope owner start operator.keyword before left word := by
    rcases hleftRun with hrun | ⟨type, hoperator, htype⟩
    · exact .left hbefore hrun hword
    · exact absurd (.inl htype) (hrejects type hoperator)
  have hrightOperand : Expression.Operand scope owner start operator.keyword word.advance right behind :=
    .right hword hrightRun
  refine leads_ofExcept (fun value hbinary => ?_) fun fault herror => ?_
  · obtain ⟨hspan, htype⟩ := binary_eq_ok hbinary
    rw [hspan]
    exact ⟨hcover, htype⟩
  · rcases binary_eq_error herror with ⟨hmismatched, hrejects⟩ | hmismatched | ⟨hnone, rfl⟩
    · exact hmismatched.reportsOperands (hleftOperand hrejects) ⟨hbefore.1, hleft⟩
    · exact hmismatched.reportsOperands hrightOperand ⟨htokens, hright⟩
    · have hrejects : ∀ type ∈ operator.operandType?, ¬ left.type.Suits type := by
        rw [hnone]
        exact nofun
      exact ⟨before, left, word, right, behind, hleftOperand hrejects, hrightOperand, rfl, rfl,
        hbefore.1, hcover⟩

end Operands

end TypedExpression

/-! ## Where operands begin -/

namespace Expression

variable {start cursor : Cursor} {loose tight precedence : Precedence} {token : Token}

theorem kind_ne_endOfInput_of_beginsBehind (hbehind : precedence.BeginsBehind token) :
    token.kind ≠ .endOfInput := by
  have hword {text : String} (hisWord : token.isWord text = true) : token.kind ≠ .endOfInput := by
    intro hend
    simp [Token.isWord, hend] at hisWord
  cases hbehind with
  | openParen hopening => exact Token.kind_ne_endOfInput_of_isA (by decide) hopening
  | comma hcomma => exact Token.kind_ne_endOfInput_of_isA (by decide) hcomma
  | not hnot => exact hword hnot
  | binary hoperator => exact hword hoperator

theorem begins_advance (htokens : cursor.tokens = start.tokens)
    (hbehind : precedence.BeginsBehind cursor.current) : Begins start precedence cursor.advance := by
  refine ⟨(Cursor.tokens_advance cursor).trans htokens, .inr ⟨cursor.current, ?_, hbehind⟩⟩
  exact Cursor.previous?_advance (kind_ne_endOfInput_of_beginsBehind hbehind)

/-- Where an operand begins, a tighter one begins. -/
theorem Begins.tighten (hbegins : Begins start loose cursor) (hle : loose ≤ tight) :
    Begins start tight cursor := by
  refine ⟨hbegins.1, hbegins.2.imp_right ?_⟩
  rintro ⟨token, hprevious, hbehind⟩
  refine ⟨token, hprevious, ?_⟩
  cases hbehind with
  | openParen hopening => exact .openParen hopening
  | comma hcomma => exact .comma hcomma
  | not hnot hnegation => exact .not hnot (Nat.le_trans hnegation hle)
  | binary hword hoperator => exact .binary hword (Nat.le_trans hoperator hle)

end Expression

end ODataOptions
