import ODataOptions.Proofs.Expression.Reading

/-!
# Reading of operations

Operations are read through all precedences, from the tightest to the loosest.  What is read as an
operand of one precedence is one of the next, if the word behind it is no operator in between.  A word
`not` at the beginning is taken for a negation, wherever one may stand.
-/

namespace ODataOptions

open ODataOptions.Parser

/-- An operand ends before the word, which is none of the operators either. -/
def Word.Ends (operators : List BinaryOperator) (word : Word) : Prop :=
  word.kind ≠ .slash ∧ word.kind ≠ .openParen ∧
    ∀ operator ∈ operators, word.isWord operator.keyword = false

namespace BinaryOperator

def all : List BinaryOperator :=
  [.mul, .div, .mod, .add, .sub, .eq, .ne, .gt, .ge, .lt, .le, .and, .or]

theorem mem_all (operator : BinaryOperator) : operator ∈ all := by
  cases operator <;> decide

theorem keyword_injective : Function.Injective keyword := by
  have hall : ∀ first ∈ all, ∀ second ∈ all, first.keyword = second.keyword → first = second := by
    decide
  exact fun first second => hall first first.mem_all second second.mem_all

/-- An operator ends the operands of the other ones. -/
theorem ends_keyword {operator : BinaryOperator} {operators : List BinaryOperator}
    (hother : operator ∉ operators) :
    ∀ word, word = Word.identifier operator.keyword → word.Ends operators := by
  rintro _ rfl
  have hkind : TokenKind.identifier ≠ .slash ∧ TokenKind.identifier ≠ .openParen := by decide
  refine ⟨hkind.1, hkind.2, fun other hmem => ?_⟩
  have hne : operator.keyword ≠ other.keyword := by
    intro hsame
    rw [keyword_injective hsame] at hother
    exact hother hmem
  simp [Word.isWord, Word.identifier, hne]

end BinaryOperator

theorem Word.Ends.mono {operators others : List BinaryOperator} {word : Word}
    (hends : word.Ends operators) (hsub : others ⊆ operators) : word.Ends others :=
  ⟨hends.1, hends.2.1, fun operator hmem => hends.2.2 operator (hsub hmem)⟩

theorem Word.ends_of_kind {operators : List BinaryOperator} {word : Word}
    (hkind : word.kind ∉ [.slash, .openParen, .identifier]) : word.Ends operators := by
  simp only [List.mem_cons, List.not_mem_nil, or_false, not_or] at hkind
  refine ⟨hkind.1, hkind.2.1, fun operator _ => ?_⟩
  simp [isWord, hkind.2.2]

theorem Word.EndsItem.ends {operators : List BinaryOperator} {word : Word} (hends : word.EndsItem) :
    word.Ends operators := by
  apply ends_of_kind
  simp only [List.mem_cons, List.not_mem_nil, or_false, not_or]
  exact ⟨hends.kind_ne _ (by decide), hends.kind_ne _ (by decide), hends.kind_ne _ (by decide)⟩

namespace Expression

/-- The word `not` comes first only where the expression looks negated. -/
theorem ahead_not {scope : Scope} {owner : StructuredType} {expression : Expression}
    {type : ExpressionType} (htype : HasType scope owner expression type)
    (hplain : ¬ expression.LooksNegated) :
    Ahead expression.words (fun _ => True) fun word => word.isWord "not" = false := by
  cases htype with
  | literal value =>
    cases value with
    | boolean truth => cases truth <;> rfl
    | _ => rfl
  | member hpath =>
    obtain ⟨first, path, rfl⟩ := hpath.exists_cons
    obtain ⟨rest, hwords, -⟩ := Member.exists_pathWords first path
    change Ahead (Member.pathWords _) _ _
    rw [hwords]
    have hname : ¬ first.name = "not" := hplain
    simp [Ahead, Word.isWord, Word.identifier, hname]
  | parameter => rfl
  | not | logical | equality | ordering | arithmetic => rfl
  | @call method => cases method <;> rfl

namespace Grammar

variable {scope : Scope} {owner : StructuredType} {inner : Grammar} {depth : Nat}
  {words : List Word} {follow middle : Word → Prop} {fits fits' : Prop}
  {P : TypedExpression → Prop}

theorem declines_operators {operators : List BinaryOperator}
    (hfollow : ∀ word, follow word → word.Ends operators) :
    Reads (oneOfWords BinaryOperator.keyword operators) depth [] follow True (· = none) :=
  declines_oneOfWords _ fun word hword => (hfollow word hword).2.2

theorem reads_operator {operator : BinaryOperator} {operators : List BinaryOperator}
    (hmem : operator ∈ operators) :
    Reads (oneOfWords BinaryOperator.keyword operators) depth [.identifier operator.keyword] follow
      True (· = some operator) :=
  reads_oneOfWords _ hmem fun _ _ hsame => BinaryOperator.keyword_injective hsame

/-- Operands of the classes that the judgement asks for make the operation of its class. -/
theorem binary_of {operator : BinaryOperator} {left right : Expression} {type : ExpressionType}
    (htype : HasType scope owner (.binary operator left right) type) {first second : TypedExpression}
    (hfirst : TypedExpression.Of scope owner left first)
    (hsecond : TypedExpression.Of scope owner right second) :
    ∃ typed, TypedExpression.binary operator first second = .ok typed ∧
      TypedExpression.Of scope owner (.binary operator left right) typed := by
  obtain ⟨rfl, hleft⟩ := hfirst
  obtain ⟨rfl, hright⟩ := hsecond
  have hchecks := (TypedExpression.operationType_eq_ok_iff hleft hright).mpr htype
  rw [TypedExpression.binary, hchecks]
  exact ⟨_, rfl, rfl, htype⟩

/-! ## One precedence -/

section Precedence

variable {operators : List BinaryOperator} {operand : Parser TypedExpression}

/-- A single operand is an operation of any precedence, if none of its operators follows. -/
theorem reads_operations_one (hoperand : Reads operand depth words follow fits P)
    (hfollow : ∀ word, follow word → word.Ends operators) :
    Reads (operations operators operand) depth words follow fits P :=
  hoperand.chain_single (fun _ h => h) (declines_operators hfollow)

variable {operator : BinaryOperator} {left right : Expression} {type : ExpressionType}
  (htype : HasType scope owner (.binary operator left right) type)

include htype

/-- Two operands make one operation, if no further operator follows. -/
theorem reads_operations_two (hmem : operator ∈ operators)
    (hleft : Reads operand depth left.words (· = .identifier operator.keyword) fits
      (TypedExpression.Of scope owner left))
    (hright : Reads operand depth right.words follow fits' (TypedExpression.Of scope owner right))
    (hfollow : ∀ word, follow word → word.Ends operators) :
    Reads (operations operators operand) depth
      (left.words ++ .identifier operator.keyword :: right.words) follow (fits ∧ fits')
      (TypedExpression.Of scope owner (.binary operator left right)) :=
  hleft.chain_pair rfl (reads_operator hmem) (ahead_true _ _) hright (fun _ h => h)
    (fun _ _ hfirst hsecond => binary_of htype hfirst hsecond) (declines_operators hfollow)

/-- Two operands of a comparison make one, and nothing goes on behind them. -/
theorem reads_comparison_two {leftWords rightWords : List Word}
    (hmem : operator ∈ [.eq, .ne, .gt, .ge, .lt, .le])
    (hleft : Reads (additive scope owner inner) depth leftWords (· = .identifier operator.keyword)
      fits (TypedExpression.Of scope owner left))
    (hright : Reads (additive scope owner inner) depth rightWords follow fits'
      (TypedExpression.Of scope owner right)) :
    Reads (comparison scope owner inner) depth
      (leftWords ++ .identifier operator.keyword :: rightWords) follow (fits ∧ fits')
      (TypedExpression.Of scope owner (.binary operator left right)) := by
  refine hleft.bind rfl ?_
  intro first hfirst
  change Reads _ depth ([.identifier operator.keyword] ++ rightWords) _ _ _
  apply (reads_operator hmem).bind_sure (ahead_true _ _)
  rintro _ rfl
  apply hright.bind_end (fun _ hword => hword)
  intro second hsecond
  exact reads_ofExcept trivial (binary_of htype hfirst hsecond)

end Precedence

theorem reads_comparison_one (hleft : Reads (additive scope owner inner) depth words follow fits P)
    (hfollow : ∀ word, follow word → word.Ends [.eq, .ne, .gt, .ge, .lt, .le]) :
    Reads (comparison scope owner inner) depth words follow fits P := by
  apply hleft.bind_end (fun _ h => h)
  intro left hl
  apply (declines_operators hfollow).bind_end (fun _ h => h)
  rintro _ rfl
  exact reads_pure trivial hl

theorem reads_negation_none
    (hread : Reads (comparison scope owner inner) depth words follow fits P)
    (hfirst : Ahead words follow fun word => word.isWord "not" = false) :
    Reads (negation scope owner inner) depth words follow fits P := by
  apply reads_current hfirst
  intro token hword
  rw [← Token.isWord_word, hword]
  exact hread

theorem reads_negated {operand : Expression} {type : ExpressionType}
    (htype : HasType scope owner (.not operand) type)
    (hoperand : Reads inner.operand depth words follow fits
      (TypedExpression.Of scope owner operand)) :
    Reads (negated inner) depth (.identifier "not" :: words) follow fits
      (TypedExpression.Of scope owner (.not operand)) := by
  cases htype with
  | not hexpression hsuits =>
    apply reads_expect rfl
    intro _ _
    apply hoperand.bind_end (fun _ h => h)
    intro typed htyped
    have hchecks : typed.require "not" .boolean = .ok () := by
      rw [TypedExpression.require_eq_ok_iff, hexpression.unique htyped.2]
      exact hsuits
    apply (reads_ofExcept (P := fun _ => True) trivial ⟨(), hchecks, trivial⟩).map
    intro _ _
    exact ⟨congrArg _ htyped.1, .not hexpression hsuits⟩

theorem reads_negation_not
    (hnegated : Reads (nested scope.limits.expressionDepth (negated inner)) depth
      (.identifier "not" :: words) follow fits P) :
    Reads (negation scope owner inner) depth (.identifier "not" :: words) follow fits P := by
  refine reads_current (R := fun word => word.isWord "not" = true) rfl ?_
  intro token hword
  rw [← Token.isWord_word, hword]
  exact hnegated

/-! ## All precedences -/

/-- What ends operations of every precedence. -/
theorem ends_of_all {operators : List BinaryOperator}
    (hfollow : ∀ word, follow word → word.Ends BinaryOperator.all) :
    ∀ word, follow word → word.Ends operators :=
  fun word hword => (hfollow word hword).mono fun operator _ => operator.mem_all

section Operand

variable (hprimary : Reads (primary scope owner inner) depth words (Word.Ends []) fits P)

include hprimary

theorem reads_multiplicative (hfollow : ∀ word, follow word → word.Ends (BinaryOperator.all.take 3)) :
    Reads (multiplicative scope owner inner) depth words follow fits P := by
  refine reads_operations_one ?_ hfollow
  exact hprimary.narrow fun word hword => (hfollow word hword).mono (by simp)

theorem reads_additive (hfollow : ∀ word, follow word → word.Ends (BinaryOperator.all.take 5)) :
    Reads (additive scope owner inner) depth words follow fits P := by
  have hmultiplicative := reads_multiplicative hprimary fun word hword =>
    (hfollow word hword).mono (by decide)
  exact reads_operations_one hmultiplicative fun word hword => (hfollow word hword).mono (by decide)

theorem reads_comparison (hfollow : ∀ word, follow word → word.Ends (BinaryOperator.all.take 11)) :
    Reads (comparison scope owner inner) depth words follow fits P := by
  refine reads_comparison_one (reads_additive hprimary fun word hword => ?_) fun word hword => ?_
  · exact (hfollow word hword).mono (by decide)
  · exact (hfollow word hword).mono (by decide)

variable (hfirst : Ahead words follow fun word => word.isWord "not" = false)

include hfirst

theorem reads_negation (hfollow : ∀ word, follow word → word.Ends (BinaryOperator.all.take 11)) :
    Reads (negation scope owner inner) depth words follow fits P :=
  reads_negation_none (reads_comparison hprimary hfollow) hfirst

theorem reads_conjunction (hfollow : ∀ word, follow word → word.Ends (BinaryOperator.all.take 12)) :
    Reads (conjunction scope owner inner) depth words follow fits P := by
  refine reads_operations_one (reads_negation hprimary hfirst fun word hword => ?_)
    fun word hword => ?_
  · exact (hfollow word hword).mono (by decide)
  · exact (hfollow word hword).mono (by decide)

/-- An operand by itself is a whole expression, where no operator follows. -/
theorem reads_disjunction (hfollow : ∀ word, follow word → word.Ends BinaryOperator.all) :
    Reads (disjunction scope owner inner) depth words follow fits P :=
  reads_operations_one (reads_conjunction hprimary hfirst (ends_of_all hfollow)) (ends_of_all hfollow)

end Operand

/-- A comparison that does not begin with `not` is a whole expression. -/
theorem reads_disjunction_of_comparison
    (hread : Reads (comparison scope owner inner) depth words follow fits P)
    (hfirst : Ahead words follow fun word => word.isWord "not" = false)
    (hfollow : ∀ word, follow word → word.Ends BinaryOperator.all) :
    Reads (disjunction scope owner inner) depth words follow fits P := by
  refine reads_operations_one (reads_operations_one ?_ (ends_of_all hfollow)) (ends_of_all hfollow)
  exact reads_negation_none hread hfirst

section Binary

variable {operator : BinaryOperator} {left right : Expression} {type : ExpressionType}
  (htype : HasType scope owner (.binary operator left right) type)
  (hleft : Reads (primary scope owner inner) depth left.words (Word.Ends []) fits
    (TypedExpression.Of scope owner left))
  (hright : Reads (primary scope owner inner) depth right.words (Word.Ends []) fits'
    (TypedExpression.Of scope owner right))
  (hfollow : ∀ word, follow word → word.Ends BinaryOperator.all)

include htype hleft hright hfollow

/-- An operation up to a comparison, whatever its operator, between operands by themselves. -/
theorem reads_comparison_binary (hmem : operator ∈ BinaryOperator.all.take 11) :
    Reads (comparison scope owner inner) depth
      (left.words ++ .identifier operator.keyword :: right.words) follow (fits ∧ fits')
      (TypedExpression.Of scope owner (.binary operator left right)) := by
  have htiers : ∀ operator ∈ BinaryOperator.all.take 11,
      operator ∈ [BinaryOperator.mul, .div, .mod] ∨
      (operator ∈ [BinaryOperator.add, .sub] ∧ operator ∉ BinaryOperator.all.take 3) ∨
      (operator ∈ [BinaryOperator.eq, .ne, .gt, .ge, .lt, .le] ∧
        operator ∉ BinaryOperator.all.take 5) := by decide
  rcases htiers operator hmem with hmem | ⟨hmem, hother⟩ | ⟨hmem, hother⟩
  · have htwo := reads_operations_two htype hmem
      (hleft.narrow (BinaryOperator.ends_keyword List.not_mem_nil))
      (hright.narrow (ends_of_all hfollow)) (ends_of_all hfollow)
    exact reads_comparison_one (reads_operations_one htwo (ends_of_all hfollow))
      (ends_of_all hfollow)
  · have htwo := reads_operations_two htype hmem
      (reads_multiplicative hleft (BinaryOperator.ends_keyword hother))
      (reads_multiplicative hright (ends_of_all hfollow)) (ends_of_all hfollow)
    exact reads_comparison_one htwo (ends_of_all hfollow)
  · exact reads_comparison_two htype hmem (reads_additive hleft (BinaryOperator.ends_keyword hother))
      (reads_additive hright (ends_of_all hfollow))

end Binary

section Logical

variable {left right : Expression} {type : ExpressionType}
  (hfollow : ∀ word, follow word → word.Ends BinaryOperator.all)

include hfollow

theorem reads_and (htype : HasType scope owner (.binary .and left right) type)
    (hleft : Reads (primary scope owner inner) depth left.words (Word.Ends []) fits
      (TypedExpression.Of scope owner left))
    (hfirst : Ahead left.words (fun _ => True) fun word => word.isWord "not" = false)
    (hright : Reads (negation scope owner inner) depth right.words follow fits'
      (TypedExpression.Of scope owner right)) :
    Reads (disjunction scope owner inner) depth (left.words ++ .identifier "and" :: right.words) follow
      (fits ∧ fits') (TypedExpression.Of scope owner (.binary .and left right)) := by
  have hother : BinaryOperator.and ∉ BinaryOperator.all.take 11 := by decide
  have hleft' := reads_negation hleft (hfirst.follow_mono fun _ _ => trivial)
    (BinaryOperator.ends_keyword hother)
  exact reads_operations_one
    (reads_operations_two htype (.head _) hleft' hright (ends_of_all hfollow)) (ends_of_all hfollow)

theorem reads_or (htype : HasType scope owner (.binary .or left right) type)
    (hleft : Reads (primary scope owner inner) depth left.words (Word.Ends []) fits
      (TypedExpression.Of scope owner left))
    (hfirst : Ahead left.words (fun _ => True) fun word => word.isWord "not" = false)
    (hright : Reads (conjunction scope owner inner) depth right.words follow fits'
      (TypedExpression.Of scope owner right)) :
    Reads (disjunction scope owner inner) depth (left.words ++ .identifier "or" :: right.words) follow
      (fits ∧ fits') (TypedExpression.Of scope owner (.binary .or left right)) := by
  have hother : BinaryOperator.or ∉ BinaryOperator.all.take 12 := by decide
  have hleft' := reads_conjunction hleft (hfirst.follow_mono fun _ _ => trivial)
    (BinaryOperator.ends_keyword hother)
  exact reads_operations_two htype (.head _) hleft' hright (ends_of_all hfollow)

end Logical

end Grammar

end Expression

end ODataOptions
