import ODataOptions.Proofs.Expression.Depths
import ODataOptions.Proofs.Expression.Precedence

/-!
# How high the trees of expressions are

The limit bounds the levels that an expression opens.  A chain of operators of one precedence opens none,
so the tree of it may be of any height.  Where each chain counts once, the limit bounds the height.
-/

namespace ODataOptions

open ODataOptions.Parser

/-- Whether an operation of the first operator goes on with a chain of the second one, its left operand.
Comparisons are not chained. -/
def BinaryOperator.chainsWith (operator other : BinaryOperator) : Bool :=
  !operator.isComparison && operator.precedence = other.precedence

namespace Expression

mutual

/-- The number of nodes on the longest way down the tree. -/
def height : Expression → Nat
  | .literal _ | .member _ | .parameter _ => 1
  | .not operand => height operand + 1
  | .binary _ left right => max (height left) (height right) + 1
  | .call _ arguments => heightAll arguments + 1

def heightAll : List Expression → Nat
  | [] => 0
  | expression :: expressions => max (height expression) (heightAll expressions)

end

/-- Whether the expression is the beginning of a chain that the operator goes on with. -/
def beginsChain (operator : BinaryOperator) : Expression → Bool
  | .binary other _ _ => operator.chainsWith other
  | _ => false

mutual

/-- The height of the tree, where the operations of a chain count as one node. -/
def nesting : Expression → Nat
  | .literal _ | .member _ | .parameter _ => 1
  | .not operand => nesting operand + 1
  | .binary operator left right =>
    max (if left.beginsChain operator then nesting left else nesting left + 1) (nesting right + 1)
  | .call _ arguments => nestingAll arguments + 1

def nestingAll : List Expression → Nat
  | [] => 0
  | expression :: expressions => max (nesting expression) (nestingAll expressions)

end

variable {bound : Nat}

theorem nestingAll_le {expressions : List Expression}
    (hall : ∀ expression ∈ expressions, expression.nesting ≤ bound) :
    nestingAll expressions ≤ bound := by
  induction expressions with
  | nil => exact Nat.zero_le bound
  | cons expression expressions ih =>
    obtain ⟨hfirst, hrest⟩ := List.forall_mem_cons.mp hall
    exact Nat.max_le.mpr ⟨hfirst, ih hrest⟩

/-! ## Chains of any height -/

def sum : Nat → Expression
  | 0 => .literal (.integer 1)
  | count + 1 => .binary .add (sum count) (.literal (.integer 1))

def sumWords : Nat → List Word
  | 0 => [Literal.word (.integer 1)]
  | count + 1 => sumWords count ++ [.identifier "add", Literal.word (.integer 1)]

theorem height_sum (count : Nat) : (sum count).height = count + 1 := by
  induction count with
  | zero => rfl
  | succ count ih =>
    rw [sum, height, ih, height]
    omega

theorem hasType_sum (scope : Scope) (owner : StructuredType) (count : Nat) :
    HasType scope owner (sum count) .numeric := by
  induction count with
  | zero => exact .literal _
  | succ count ih => exact .arithmetic (.head _) ih (.literal _) (.inl rfl) (.inl rfl)

theorem spelled_sum (count : Nat) : (sum count).Spelled Word.IsToken := by
  induction count with
  | zero => rfl
  | succ count ih => exact ⟨ih, rfl⟩

theorem plain_sum (count : Nat) : (sum count).Plain := by
  induction count with
  | zero => trivial
  | succ count ih => exact ⟨ih, trivial⟩

/-- A sum opens no level. -/
theorem renders_sum (count : Nat) {precedence : Precedence} (hloose : precedence ≤ .additive) :
    Renders 0 precedence (sum count) (sumWords count) := by
  induction count generalizing precedence with
  | zero => exact .literal _
  | succ count ih => exact .binary hloose (ih (Nat.le_refl _)) (.literal _)

/-- Sums of every length are parsed, whatever the limit is. -/
theorem exists_parse_sum (scope : Scope) (owner : StructuredType) (count : Nat) :
    ∃ tokens typed, (Expression.parse scope owner).onTokens tokens = .ok typed ∧
      typed.expression.height = count + 1 := by
  have hrenders : Renders 0 .disjunction (sum count) (sumWords count) :=
    renders_sum count (by decide)
  have hspelled := spelled_sum count
  obtain ⟨found, stop, -, hwords⟩ :=
    (writes_spaced (hrenders.writes_word hspelled)).written.tokensOrFault_eq
  obtain ⟨span, rest, hrun, -⟩ := parse_words (hasType_sum scope owner count) hspelled
    (plain_sum count) hrenders (Nat.zero_le _) hwords stop
  refine ⟨found ++ [.endOfInput stop], ⟨sum count, .numeric, span⟩, ?_, height_sum count⟩
  rw [onTokens, EStateM.run, hrun]

/-! ## Chains that count once -/

/-- An operand that nests at most so deep, or a chain of these that goes on with each of the
operators. -/
def Chained (operators : List BinaryOperator) (bound : Nat) (expression : Expression) : Prop :=
  expression.nesting ≤ bound ∨ expression.nesting ≤ bound + 1 ∧
    ∀ operator ∈ operators, expression.beginsChain operator = true

variable {operators : List BinaryOperator} {operator : BinaryOperator} {left right : Expression}

/-- Outside chains, an operation is one node above its operands. -/
theorem nesting_binary_le (hleft : left.nesting ≤ bound) (hright : right.nesting ≤ bound) :
    (binary operator left right).nesting ≤ bound + 1 := by
  rw [nesting]
  apply Nat.max_le.mpr
  refine ⟨?_, Nat.succ_le_succ hright⟩
  split
  · exact Nat.le_succ_of_le hleft
  · exact Nat.succ_le_succ hleft

/-- All operations of a chain together are one node above the operands. -/
theorem Chained.nesting_le (hchained : Chained operators bound left) : left.nesting ≤ bound + 1 := by
  rcases hchained with hoperand | ⟨hle, -⟩
  · exact Nat.le_succ_of_le hoperand
  · exact hle

/-- The chain goes on without another node. -/
theorem Chained.binary (hmem : operator ∈ operators)
    (hchain : ∀ other ∈ operators, other.chainsWith operator = true)
    (hleft : Chained operators bound left) (hright : right.nesting ≤ bound) :
    Chained operators bound (.binary operator left right) := by
  refine .inr ⟨?_, hchain⟩
  rcases hleft with hoperand | ⟨hle, hbegins⟩
  · exact nesting_binary_le hoperand hright
  · rw [nesting, if_pos (hbegins operator hmem)]
    exact Nat.max_le.mpr ⟨hle, Nat.succ_le_succ hright⟩

theorem IsLeaf.nesting_eq {tree : Expression} (hleaf : tree.IsLeaf) : tree.nesting = 1 := by
  cases tree <;> first | rfl | cases hleaf

/-! ## The grammar -/

namespace Grammar

/-- With `depth` levels open, the parts of the grammar nest no deeper than the levels that are left below
the limit allow, with a node for each precedence at each of them. -/
structure Shallow (scope : Scope) (inner : Grammar) (depth : Nat) : Prop where
  whole : YieldsTrees depth inner.whole fun tree =>
    tree.nesting ≤ 6 * (scope.limits.expressionDepth - depth) + 6
  operand : YieldsTrees depth inner.operand fun tree =>
    tree.nesting ≤ 6 * (scope.limits.expressionDepth - depth) + 6

/-- Operands with operators of one chain between them nest one node deeper. -/
theorem YieldsTrees.nesting_operations {depth : Nat} {parser : Parser TypedExpression}
    (hparser : YieldsTrees depth parser fun tree => tree.nesting ≤ bound)
    (operators : List BinaryOperator)
    (hchain : ∀ operator ∈ operators, ∀ other ∈ operators, other.chainsWith operator = true) :
    YieldsTrees depth (Grammar.operations operators parser) fun tree =>
      tree.nesting ≤ bound + 1 := by
  have hchained : YieldsTrees depth (Grammar.operations operators parser)
      (Chained operators bound) := by
    apply YieldsTrees.operations hparser
    · exact fun _ htree => .inl htree
    · intro operator hmem left right hleft hright
      exact hleft.binary hmem (hchain operator hmem) hright
  exact hchained.mono fun _ htree => htree.nesting_le

namespace Shallow

variable {scope : Scope} {owner : StructuredType} {inner : Grammar} {depth : Nat}
  (hinner : inner.Shallow scope (depth + 1))

include hinner

/-- A call is one node above its arguments, which stand one level further in. -/
theorem primary :
    YieldsTrees depth (primary scope owner inner) fun tree =>
      tree.nesting ≤ 6 * (scope.limits.expressionDepth - depth) + 1 := by
  apply yieldsTrees_primary (P := fun tree =>
    tree.nesting ≤ 6 * (scope.limits.expressionDepth - (depth + 1)) + 6)
  · intro tree hleaf
    rw [hleaf.nesting_eq]
    exact Nat.le_add_left _ _
  · intro hbelow
    exact hinner.whole
  · intro hbelow tree htree
    omega
  · intro hbelow method arguments hall
    have harguments := nestingAll_le hall
    rw [nesting]
    omega

theorem comparison :
    YieldsTrees depth (comparison scope owner inner) fun tree =>
      tree.nesting ≤ 6 * (scope.limits.expressionDepth - depth) + 4 := by
  have hprimary : YieldsTrees depth (Grammar.primary scope owner inner) _ := hinner.primary
  have hmultiplicative := hprimary.nesting_operations [.mul, .div, .mod] (by decide)
  have hadditive := hmultiplicative.nesting_operations [.add, .sub] (by decide)
  apply YieldsTrees.comparison hadditive
  · exact fun _ htree => Nat.le_succ_of_le htree
  · intro operator left right hleft hright
    exact nesting_binary_le hleft hright

theorem negation :
    YieldsTrees depth (negation scope owner inner) fun tree =>
      tree.nesting ≤ 6 * (scope.limits.expressionDepth - depth) + 4 := by
  apply yieldsTrees_negation (P := fun tree =>
    tree.nesting ≤ 6 * (scope.limits.expressionDepth - (depth + 1)) + 6)
  · intro hbelow
    exact hinner.operand
  · intro hbelow tree htree
    rw [nesting]
    omega
  · exact hinner.comparison

/-- Two more chains stand above the negations. -/
theorem disjunction :
    YieldsTrees depth (disjunction scope owner inner) fun tree =>
      tree.nesting ≤ 6 * (scope.limits.expressionDepth - depth) + 6 := by
  have hnegation : YieldsTrees depth (Grammar.negation scope owner inner) _ := hinner.negation
  have hconjunction := hnegation.nesting_operations [.and] (by decide)
  exact hconjunction.nesting_operations [.or] (by decide)

end Shallow

/-- The levels that are left decide, not how often the grammar has referred back to itself. -/
theorem shallow_ofLevels (scope : Scope) (owner : StructuredType) (levels depth : Nat) :
    (ofLevels scope owner levels).Shallow scope depth := by
  induction levels generalizing depth with
  | zero => exact ⟨yieldsAt_failHere _, yieldsAt_failHere _⟩
  | succ levels ih =>
    have hinner := ih (depth + 1)
    refine ⟨hinner.disjunction, ?_⟩
    apply hinner.negation.mono
    intro tree htree
    omega

end Grammar

/-- Wherever an expression is parsed, the counter of open levels bounds its nesting. -/
theorem yieldsTrees_parse_nesting (scope : Scope) (owner : StructuredType) (depth : Nat) :
    Grammar.YieldsTrees depth (Expression.parse scope owner) fun tree =>
      tree.nesting ≤ 6 * (scope.limits.expressionDepth - depth) + 6 :=
  (Grammar.shallow_ofLevels scope owner _ depth).whole

end Expression

end ODataOptions
