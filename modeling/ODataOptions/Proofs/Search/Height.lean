import ODataOptions.Proofs.Search.Depths
import ODataOptions.Proofs.Search.Rendering

/-!
# How high the trees of searches are

As with expressions, only groups and negations open levels.  So operands next to one another make a tree of
any height, and the limit bounds the height where they count once.
-/

namespace ODataOptions.SearchExpression

open ODataOptions.Parser

/-- The number of nodes on the longest way down the tree. -/
def height : SearchExpression → Nat
  | .term _ | .phrase _ => 1
  | .not operand => operand.height + 1
  | .and left right | .or left right => max left.height right.height + 1

def isAnd : SearchExpression → Bool
  | .and _ _ => true
  | _ => false

def isOr : SearchExpression → Bool
  | .or _ _ => true
  | _ => false

/-- The height of the tree, where operands joined by one operator count as one node. -/
def nesting : SearchExpression → Nat
  | .term _ | .phrase _ => 1
  | .not operand => operand.nesting + 1
  | .and left right =>
    max (if left.isAnd then left.nesting else left.nesting + 1) (right.nesting + 1)
  | .or left right =>
    max (if left.isOr then left.nesting else left.nesting + 1) (right.nesting + 1)

/-! ## Chains of any height -/

def repeated : Nat → SearchExpression
  | 0 => .term "a"
  | count + 1 => .and (repeated count) (.term "a")

theorem height_repeated (count : Nat) : (repeated count).height = count + 1 := by
  induction count with
  | zero => rfl
  | succ count ih =>
    rw [repeated, height, ih, height]
    omega

theorem spelled_repeated (count : Nat) : (repeated count).Spelled Word.IsToken := by
  have hterm : (term "a").Spelled Word.IsToken := ⟨.identifier, ⟨_, rfl⟩, rfl⟩
  induction count with
  | zero => exact hterm
  | succ count ih => exact ⟨ih, hterm⟩

/-- The words stand next to one another and open no level. -/
theorem exists_renders_repeated (count : Nat) {precedence : Precedence}
    (hloose : precedence ≤ .conjunction) : ∃ list, Renders 0 precedence (repeated count) list := by
  induction count generalizing precedence with
  | zero => exact ⟨_, .term "a"⟩
  | succ count ih =>
    obtain ⟨list, hlist⟩ := ih (Nat.le_refl _)
    exact ⟨_, .and [] (.head _) hloose hlist (.term "a")⟩

/-- Searches for any number of words are parsed, whatever the limit is. -/
theorem exists_parse_repeated (limits : Limits) (count : Nat) :
    ∃ tokens, (SearchExpression.parse limits).onTokens tokens = .ok (repeated count) := by
  obtain ⟨list, hrenders⟩ :=
    exists_renders_repeated count (by decide : Precedence.disjunction ≤ .conjunction)
  have hspelled := spelled_repeated count
  have hwritten := (writes_spaced (hrenders.writes_word hspelled)).written
  have hread : Reads (SearchExpression.parse limits) 0 list Word.EndsValue True (· = repeated count) :=
    (Grammar.readsAs_of_renders hrenders hspelled (Nat.zero_le _) (Nat.add_zero _)).reads_disjunction
  obtain ⟨found, stop, -, hwords⟩ := hwritten.tokensOrFault_eq
  obtain ⟨rest, -, hok, -⟩ := hread.on_list hwritten.kind_ne_endOfInput hwords stop
  obtain ⟨_, hrun, rfl⟩ := hok trivial
  exact ⟨_, by rw [onTokens, EStateM.run, hrun]⟩

/-! ## Chains that count once -/

variable {bound : Nat} {left right : SearchExpression}

/-- An operand that nests at most so deep, or operands joined by one operator. -/
def Joined (isJoined : SearchExpression → Bool) (bound : Nat) (search : SearchExpression) : Prop :=
  search.nesting ≤ bound ∨ search.nesting ≤ bound + 1 ∧ isJoined search = true

theorem Joined.nesting_le {isJoined : SearchExpression → Bool} (hleft : left.Joined isJoined bound) :
    left.nesting ≤ bound + 1 := by
  rcases hleft with hoperand | ⟨hle, -⟩
  · exact Nat.le_succ_of_le hoperand
  · exact hle

/-- One more operand does not make another node. -/
theorem Joined.max_le {isJoined : SearchExpression → Bool} (hleft : left.Joined isJoined bound)
    (hright : right.nesting ≤ bound) :
    max (if isJoined left then left.nesting else left.nesting + 1) (right.nesting + 1) ≤ bound + 1 := by
  apply Nat.max_le.mpr
  refine ⟨?_, Nat.succ_le_succ hright⟩
  rcases hleft with hoperand | ⟨hle, hjoined⟩
  · split
    · exact Nat.le_succ_of_le hoperand
    · exact Nat.succ_le_succ hoperand
  · rw [if_pos hjoined]
    exact hle

namespace Grammar

/-- With `depth` levels open, the parts of the grammar nest no deeper than the levels that are left below
the limit allow, with a node for each precedence at each of them. -/
structure Shallow (limits : Limits) (inner : Grammar) (depth : Nat) : Prop where
  whole : YieldsAt depth inner.whole fun search =>
    search.nesting ≤ 3 * (limits.expressionDepth - depth) + 3
  operand : YieldsAt depth inner.operand fun search =>
    search.nesting ≤ 3 * (limits.expressionDepth - depth) + 3

namespace Shallow

variable {limits : Limits} {inner : Grammar} {depth : Nat} (hinner : inner.Shallow limits (depth + 1))

include hinner

theorem negation :
    YieldsAt depth (negation limits inner) fun search =>
      search.nesting ≤ 3 * (limits.expressionDepth - depth) + 1 := by
  apply yieldsAt_negation (P := fun search =>
    search.nesting ≤ 3 * (limits.expressionDepth - (depth + 1)) + 3)
  · intro hbelow
    exact hinner.operand
  · intro hbelow search hsearch
    rw [nesting]
    omega
  · apply yieldsAt_primary (P := fun search =>
      search.nesting ≤ 3 * (limits.expressionDepth - (depth + 1)) + 3)
    · exact fun _ => Nat.le_add_left 1 _
    · exact fun _ => Nat.le_add_left 1 _
    · intro hbelow
      exact hinner.whole
    · intro hbelow search hsearch
      omega

theorem conjunction :
    YieldsAt depth (conjunction limits inner) fun search =>
      search.nesting ≤ 3 * (limits.expressionDepth - depth) + 2 := by
  have hjoined : YieldsAt depth (Grammar.conjunction limits inner)
      (Joined isAnd (3 * (limits.expressionDepth - depth) + 1)) := by
    apply yieldsAt_conjunction hinner.negation
    · exact fun _ hsearch => .inl hsearch
    · exact fun _ _ hleft hright => .inr ⟨hleft.max_le hright, rfl⟩
  exact hjoined.mono fun _ hsearch => hsearch.nesting_le

theorem disjunction :
    YieldsAt depth (disjunction limits inner) fun search =>
      search.nesting ≤ 3 * (limits.expressionDepth - depth) + 3 := by
  have hjoined : YieldsAt depth (Grammar.disjunction limits inner)
      (Joined isOr (3 * (limits.expressionDepth - depth) + 2)) := by
    apply yieldsAt_disjunction hinner.conjunction
    · exact fun _ hsearch => .inl hsearch
    · exact fun _ _ hleft hright => .inr ⟨hleft.max_le hright, rfl⟩
  exact hjoined.mono fun _ hsearch => hsearch.nesting_le

end Shallow

/-- The levels that are left decide, not how often the grammar has referred back to itself. -/
theorem shallow_ofLevels (limits : Limits) (levels depth : Nat) :
    (ofLevels limits levels).Shallow limits depth := by
  induction levels generalizing depth with
  | zero => exact ⟨yieldsAt_failHere _, yieldsAt_failHere _⟩
  | succ levels ih =>
    have hinner := ih (depth + 1)
    refine ⟨hinner.disjunction, ?_⟩
    apply hinner.negation.mono
    intro search hsearch
    omega

end Grammar

/-- Wherever a search is parsed, the counter of open levels bounds its nesting. -/
theorem yieldsAt_parse_nesting (limits : Limits) (depth : Nat) :
    YieldsAt depth (SearchExpression.parse limits) fun search =>
      search.nesting ≤ 3 * (limits.expressionDepth - depth) + 3 :=
  (Grammar.shallow_ofLevels limits _ depth).whole

end ODataOptions.SearchExpression
