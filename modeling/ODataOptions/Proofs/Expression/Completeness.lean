import ODataOptions.Proofs.Expression.Filters
import ODataOptions.Proofs.Expression.Mistaken

/-!
# Expressions are read back

The canonical text of an expression opens a level for each operation and each call, and two for a
negation.  The parser reads a well-typed expression back exactly if the limit admits so many levels and
no path is mistaken for a negation.
-/

namespace ODataOptions

open ODataOptions.Parser

namespace Expression

mutual

/-- How many levels the canonical text opens inside one another. -/
def levels : Expression → Nat
  | .literal _ | .member _ | .parameter _ => 0
  | .not operand => levels operand + 2
  | .binary _ left right => max (levels left) (levels right) + 1
  | .call _ arguments => levelsOfAll arguments + 1

def levelsOfAll : List Expression → Nat
  | [] => 0
  | expression :: expressions => max (levels expression) (levelsOfAll expressions)

end

mutual

/-- No path that begins with a member of the name `not` stands where a negation may stand.  This may be
so at the beginning of an operation, behind `and`, `or` and `not`, and where an argument is given. -/
def Clear : Expression → Prop
  | .literal _ | .member _ | .parameter _ => True
  | .not operand => Clear operand ∧ ¬ operand.LooksNegated
  | .binary operator left right =>
    (Clear left ∧ ¬ left.LooksNegated) ∧
      (Clear right ∧ (operator ∈ [.and, .or] → ¬ right.LooksNegated))
  | .call _ arguments => AllClear arguments

def AllClear : List Expression → Prop
  | [] => True
  | expression :: expressions =>
    (Clear expression ∧ ¬ expression.LooksNegated) ∧ AllClear expressions

end

instance decidableLooksNegated : (expression : Expression) → Decidable expression.LooksNegated
  | .member (first :: _) => inferInstanceAs (Decidable (first.name = "not"))
  | .member [] | .literal _ | .parameter _ | .not _ | .binary _ _ _ | .call _ _ => isFalse id

mutual

instance decidableClear : (expression : Expression) → Decidable expression.Clear
  | .literal _ | .member _ | .parameter _ => isTrue trivial
  | .not operand =>
    have := decidableClear operand
    inferInstanceAs (Decidable (Clear operand ∧ ¬ operand.LooksNegated))
  | .binary operator left right =>
    have := decidableClear left
    have := decidableClear right
    inferInstanceAs (Decidable ((Clear left ∧ ¬ left.LooksNegated) ∧
      (Clear right ∧ (operator ∈ [.and, .or] → ¬ right.LooksNegated))))
  | .call _ arguments => decidableAllClear arguments

instance decidableAllClear : (expressions : List Expression) → Decidable (AllClear expressions)
  | [] => isTrue trivial
  | expression :: expressions =>
    have := decidableClear expression
    have := decidableAllClear expressions
    inferInstanceAs (Decidable ((Clear expression ∧ ¬ expression.LooksNegated) ∧
      AllClear expressions))

end

theorem levelsOfAll_le_iff {expressions : List Expression} {limit : Nat} :
    levelsOfAll expressions ≤ limit ↔ ∀ expression ∈ expressions, expression.levels ≤ limit := by
  induction expressions with
  | nil => simp [levelsOfAll]
  | cons expression expressions ih => rw [levelsOfAll, Nat.max_le, ih, List.forall_mem_cons]

theorem allClear_iff {expressions : List Expression} :
    AllClear expressions ↔
      ∀ expression ∈ expressions, expression.Clear ∧ ¬ expression.LooksNegated := by
  induction expressions with
  | nil => simp [AllClear]
  | cons expression expressions ih => simp [AllClear, ih]

/-- The limit admits a call with clear arguments exactly if it admits them one level further in. -/
theorem call_fits_iff {method : Method} {arguments : List Expression} {depth limit : Nat} :
    depth + (call method arguments).levels ≤ limit ∧ (call method arguments).Clear ↔
      depth < limit ∧ ∀ argument ∈ arguments,
        (depth + 1 + argument.levels ≤ limit ∧ argument.Clear) ∧ ¬ argument.LooksNegated := by
  rw [levels, Clear, allClear_iff]
  constructor
  · rintro ⟨hlimit, hclear⟩
    have hall := levelsOfAll_le_iff.mp (Nat.le_refl (levelsOfAll arguments))
    refine ⟨by omega, fun argument hmem => ?_⟩
    have hargument := hall argument hmem
    exact ⟨⟨by omega, (hclear argument hmem).1⟩, (hclear argument hmem).2⟩
  · rintro ⟨hdepth, hall⟩
    have hle : levelsOfAll arguments ≤ limit - (depth + 1) := by
      apply levelsOfAll_le_iff.mpr
      intro argument hmem
      have hargument := (hall argument hmem).1.1
      omega
    refine ⟨by omega, fun argument hmem => ?_⟩
    exact ⟨(hall argument hmem).1.2, (hall argument hmem).2⟩

/-- What looks like a negation begins with the word `not`, and then ends or goes on with a slash. -/
theorem LooksNegated.exists_words {expression : Expression} (hlooks : expression.LooksNegated) :
    ∃ more, expression.words = .identifier "not" :: more ∧
      (more = [] ∨ more.head? = some .slash) := by
  obtain ⟨first, path, rfl⟩ : ∃ first path, expression = .member (first :: path) := by
    match expression with
    | .member (first :: path) => exact ⟨first, path, rfl⟩
  obtain ⟨more, hwords, hmore⟩ := Member.exists_pathWords first path
  have hname : first.name = "not" := hlooks
  rw [hname] at hwords
  exact ⟨more, hwords, hmore⟩

namespace Grammar

variable {scope : Scope} {owner : StructuredType}

/-- At so many open levels the operand is read back, exactly if the limit admits its levels and no path
in it is mistaken. -/
def ReadsBack (scope : Scope) (owner : StructuredType) (expression : Expression) : Prop :=
  ∀ levels depth, levels + depth = scope.limits.expressionDepth →
    Reads (primary scope owner (ofLevels scope owner levels)) depth expression.words (Word.Ends [])
      (depth + expression.levels ≤ scope.limits.expressionDepth ∧ expression.Clear)
      (TypedExpression.Of scope owner expression)

/-- What may stand behind an expression that is in parentheses. -/
def Closes (word : Word) : Prop := word = .comma ∨ word = .closeParen

theorem Closes.startsNone {word : Word} (hcloses : Closes word) : word.StartsNone := by
  rcases hcloses with rfl | rfl
  · exact (by decide : TokenKind.comma ∉ operandKinds)
  · exact (by decide : TokenKind.closeParen ∉ operandKinds)

theorem Closes.ends {operators : List BinaryOperator} {word : Word} (hcloses : Closes word) :
    word.Ends operators := by
  rcases hcloses with rfl | rfl
  · exact Word.ends_of_kind (by decide)
  · exact Word.ends_of_kind (by decide)

section Closed

variable {expression : Expression} {type : ExpressionType} {levels depth : Nat}
  (hread : ReadsBack scope owner expression) (htype : HasType scope owner expression type)
  (hlevels : levels + depth = scope.limits.expressionDepth)

include hread htype hlevels

/-- An operand of `not` is read back unless it looks negated itself. -/
theorem ReadsBack.negation :
    Reads (negation scope owner (ofLevels scope owner levels)) depth expression.words Closes
      ((depth + expression.levels ≤ scope.limits.expressionDepth ∧ expression.Clear) ∧
        ¬ expression.LooksNegated)
      (TypedExpression.Of scope owner expression) := by
  by_cases hlooks : expression.LooksNegated
  · obtain ⟨more, hwords, hmore⟩ := hlooks.exists_words
    have hnext : Ahead more Closes Word.StartsNone := by
      rcases hmore with rfl | hslash
      · exact fun word hword => hword.startsNone
      · obtain ⟨tail, rfl⟩ := List.head?_eq_some_iff.mp hslash
        exact (by decide : TokenKind.slash ∉ operandKinds)
    rw [hwords]
    exact (reads_negation_false levels hnext).congr_fits (by simp [hlooks])
  · have hfirst := (ahead_not htype hlooks).follow_mono fun word (_ : Closes word) => trivial
    have hnegation := reads_negation (hread levels depth hlevels) hfirst fun _ hword => hword.ends
    exact hnegation.congr_fits (by simp [hlooks])

/-- So is a whole expression, behind which operations end. -/
theorem ReadsBack.whole :
    Reads (ofLevels scope owner (levels + 1)).whole depth expression.words Closes
      ((depth + expression.levels ≤ scope.limits.expressionDepth ∧ expression.Clear) ∧
        ¬ expression.LooksNegated)
      (TypedExpression.Of scope owner expression) := by
  refine reads_operations_one ?_ fun _ hword => hword.ends
  exact reads_operations_one (hread.negation htype hlevels) fun _ hword => hword.ends

end Closed

section Cases

variable {levels depth : Nat} {inner : Grammar} {words : List Word} {follow : Word → Prop}
  {fits : Prop} {expression : Expression} {type : ExpressionType}

theorem reads_group (hcontent : Reads inner.whole depth words Closes fits
      (TypedExpression.Of scope owner expression)) :
    Reads (group inner) depth (.openParen :: words ++ [.closeParen]) follow fits
      (TypedExpression.Of scope owner expression) := by
  apply reads_expect rfl
  intro _ _
  refine hcontent.bind_rest (.inr rfl) ?_
  intro content h
  exact reads_expect rfl fun _ _ => reads_pure trivial h

/-- An expression in parentheses is read back where its inner text is. -/
theorem readsBack_of_content (content : List Word) (fits : Nat → Prop)
    (hwords : expression.words = .openParen :: content ++ [.closeParen])
    (hfits : ∀ depth, depth < scope.limits.expressionDepth ∧ fits (depth + 1) ↔
      depth + expression.levels ≤ scope.limits.expressionDepth ∧ expression.Clear)
    (hcontent : ∀ levels depth, levels + depth = scope.limits.expressionDepth →
      Reads (group (ofLevels scope owner (levels + 1))) depth (.openParen :: content ++ [.closeParen])
        (Word.Ends []) (fits depth) (TypedExpression.Of scope owner expression)) :
    ReadsBack scope owner expression := by
  intro levels depth hlevels
  rw [hwords]
  have hgroup : Reads (nested scope.limits.expressionDepth (group (ofLevels scope owner levels))) depth
      (.openParen :: content ++ [.closeParen]) (Word.Ends [])
      (depth < scope.limits.expressionDepth ∧ fits (depth + 1))
      (TypedExpression.Of scope owner expression) := by
    apply reads_nested
    intro hdepth
    obtain ⟨levels, rfl⟩ := Nat.exists_eq_add_of_le' (show 1 ≤ levels by omega)
    exact hcontent levels (depth + 1) (by omega)
  exact reads_primary_group (hgroup.congr_fits (hfits depth).symm)

/-- A negation is printed in parentheses, and its operand is read one level further in. -/
theorem readsBack_not {operand : Expression} (hread : ReadsBack scope owner operand)
    (htype : HasType scope owner (.not operand) type) : ReadsBack scope owner (.not operand) := by
  apply readsBack_of_content (.identifier "not" :: operand.words)
    (fun depth => depth < scope.limits.expressionDepth ∧
      (depth + 1 + operand.levels ≤ scope.limits.expressionDepth ∧ operand.Clear) ∧
        ¬ operand.LooksNegated) rfl
  · intro depth
    rw [Expression.levels, Clear]
    constructor
    · rintro ⟨_, _, ⟨hlimit, hclear⟩, hlooks⟩
      exact ⟨by omega, hclear, hlooks⟩
    · rintro ⟨hlimit, hclear, hlooks⟩
      exact ⟨by omega, by omega, ⟨by omega, hclear⟩, hlooks⟩
  · intro levels depth hlevels
    apply reads_group
    refine reads_operations_one (reads_operations_one ?_ fun _ hword => hword.ends)
      fun _ hword => hword.ends
    apply reads_negation_not
    apply reads_nested
    intro hdepth
    apply reads_negated htype
    obtain ⟨levels, rfl⟩ := Nat.exists_eq_add_of_le' (show 1 ≤ levels by omega)
    cases htype with
    | not hoperand => exact hread.negation hoperand (by omega)

/-- An operation is not read back where its left operand is mistaken for a negation. -/
theorem reads_group_mistaken {operator : BinaryOperator} {left right : Expression}
    (hlooks : left.LooksNegated) (hright : HasType scope owner right type) :
    Reads (group (ofLevels scope owner (levels + 1))) depth
      (.openParen :: (left.words ++ .identifier operator.keyword :: right.words) ++ [.closeParen])
      follow False (TypedExpression.Of scope owner expression) := by
  obtain ⟨more, hwords, rfl | hslash⟩ := hlooks.exists_words
  · rw [hwords]
    exact reads_group_false hright operator (levels + 1)
  · obtain ⟨tail, rfl⟩ := List.head?_eq_some_iff.mp hslash
    rw [hwords]
    exact reads_group (reads_disjunction_false levels (by decide : TokenKind.slash ∉ operandKinds))

/-- Between its parentheses, an operation is read whatever the precedence of its operator. -/
theorem reads_content_binary {operator : BinaryOperator} {left right : Expression}
    {leftType rightType : ExpressionType} (hleft : ReadsBack scope owner left)
    (hright : ReadsBack scope owner right) (hleftType : HasType scope owner left leftType)
    (hrightType : HasType scope owner right rightType)
    (htype : HasType scope owner (.binary operator left right) type)
    (hlooks : ¬ left.LooksNegated) (hlevels : levels + depth = scope.limits.expressionDepth) :
    Reads (ofLevels scope owner (levels + 1)).whole depth
      (left.words ++ .identifier operator.keyword :: right.words) Closes
      ((depth + left.levels ≤ scope.limits.expressionDepth ∧ left.Clear) ∧
        ((depth + right.levels ≤ scope.limits.expressionDepth ∧ right.Clear) ∧
          (operator ∈ [.and, .or] → ¬ right.LooksNegated)))
      (TypedExpression.Of scope owner (.binary operator left right)) := by
  have hends : ∀ word, Closes word → word.Ends BinaryOperator.all := fun _ hword => hword.ends
  have hfirst := ahead_not hleftType hlooks
  have hread := hleft levels depth hlevels
  by_cases hmem : operator ∈ BinaryOperator.all.take 11
  · have hothers : ∀ operator ∈ BinaryOperator.all.take 11,
        operator ∉ [BinaryOperator.and, .or] := by decide
    refine (reads_disjunction_of_comparison
      (reads_comparison_binary htype hread (hright levels depth hlevels) hends hmem)
      (hfirst.append _) hends).congr_fits ?_
    simp only [hothers operator hmem, false_implies, and_true]
  · have hothers : ∀ operator ∈ BinaryOperator.all, operator ∉ BinaryOperator.all.take 11 →
        operator = .and ∨ operator = .or := by decide
    have hnegation := hright.negation hrightType hlevels
    rcases hothers operator operator.mem_all hmem with rfl | rfl
    · apply (reads_and hends htype hread hfirst hnegation).congr_fits
      simp
    · refine (reads_or hends htype hread hfirst
        (reads_operations_one hnegation fun _ hword => hword.ends)).congr_fits ?_
      simp

/-- An operation is read back unless an operand of it is mistaken for a negation. -/
theorem readsBack_binary {operator : BinaryOperator} {left right : Expression}
    {leftType rightType : ExpressionType} (hleft : ReadsBack scope owner left)
    (hright : ReadsBack scope owner right) (hleftType : HasType scope owner left leftType)
    (hrightType : HasType scope owner right rightType)
    (htype : HasType scope owner (.binary operator left right) type) :
    ReadsBack scope owner (.binary operator left right) := by
  apply readsBack_of_content (left.words ++ .identifier operator.keyword :: right.words)
    (fun depth => ((depth + left.levels ≤ scope.limits.expressionDepth ∧ left.Clear) ∧
        ¬ left.LooksNegated) ∧
      ((depth + right.levels ≤ scope.limits.expressionDepth ∧ right.Clear) ∧
        (operator ∈ [.and, .or] → ¬ right.LooksNegated)))
    (by simp [Expression.words])
  · intro depth
    rw [Expression.levels, Clear]
    constructor
    · rintro ⟨_, ⟨⟨hlimit, hclear⟩, hlooks⟩, ⟨hlimit', hclear'⟩, hlooks'⟩
      exact ⟨by omega, ⟨hclear, hlooks⟩, hclear', hlooks'⟩
    · rintro ⟨hlimit, ⟨hclear, hlooks⟩, hclear', hlooks'⟩
      exact ⟨by omega, ⟨⟨by omega, hclear⟩, hlooks⟩, ⟨by omega, hclear'⟩, hlooks'⟩
  · intro levels depth hlevels
    by_cases hlooks : left.LooksNegated
    · exact (reads_group_mistaken hlooks hrightType).congr_fits (by simp [hlooks])
    · have hcontent := reads_content_binary hleft hright hleftType hrightType htype hlooks hlevels
      exact reads_group (hcontent.congr_fits (by simp [hlooks]))

/-- A call opens one level for its arguments, each of which is a whole expression. -/
theorem readsBack_call {method : Method} {arguments : List Expression}
    (hread : ∀ argument ∈ arguments, ReadsBack scope owner argument)
    (htype : HasType scope owner (.call method arguments) type) :
    ReadsBack scope owner (.call method arguments) := by
  intro levels depth hlevels
  have htypes := htype.exists_type_argument
  have hpairs : (arguments.map fun argument => (argument, argument.words)).map Prod.fst =
      arguments := by
    simp [Function.comp_def]
  have hfirst : ∀ argument ∈ arguments.map fun argument => (argument, argument.words),
      Ahead argument.2 (fun _ => True) fun word => word.kind ∈ operandKinds := by
    refine List.forall_mem_map.mpr ?_
    intro argument hmem
    obtain ⟨argumentType, hargument⟩ := htypes argument hmem
    obtain ⟨word, more, hwords, hkind⟩ := exists_words hargument
    exact hwords ▸ hkind
  have hpair : depth < scope.limits.expressionDepth →
      ∀ argument ∈ arguments.map fun argument => (argument, argument.words),
        Reads (ofLevels scope owner levels).whole (depth + 1) argument.2 Closes
          ((depth + 1 + argument.1.levels ≤ scope.limits.expressionDepth ∧ argument.1.Clear) ∧
            ¬ argument.1.LooksNegated) (TypedExpression.Of scope owner argument.1) := by
    intro hdepth
    obtain ⟨levels, rfl⟩ := Nat.exists_eq_add_of_le' (show 1 ≤ levels by omega)
    refine List.forall_mem_map.mpr ?_
    intro argument hmem
    obtain ⟨argumentType, hargument⟩ := htypes argument hmem
    exact (hread argument hmem).whole hargument (by omega)
  have hcall : Reads (primary scope owner (ofLevels scope owner levels)) depth
      (call method arguments).words (Word.Ends [])
      (depth < scope.limits.expressionDepth ∧ ∀ argument ∈ arguments,
        (depth + 1 + argument.levels ≤ scope.limits.expressionDepth ∧ argument.Clear) ∧
          ¬ argument.LooksNegated)
      (TypedExpression.Of scope owner (.call method arguments)) := by
    have hprimary : Reads (primary scope owner (ofLevels scope owner levels)) depth _ (Word.Ends [])
        _ _ :=
      reads_primary_call _ (hpairs.symm ▸ htype) hfirst hpair
    simpa only [Expression.words, allWords_eq_map, List.map_map, Function.comp_def,
      List.forall_mem_map, hpairs] using hprimary
  exact hcall.congr_fits call_fits_iff

end Cases

mutual

/-- Every well-typed operand is read back. -/
theorem readsBack {expression : Expression} {type : ExpressionType}
    (hspelled : expression.Spelled Word.IsToken) (htype : HasType scope owner expression type) :
    ReadsBack scope owner expression := by
  match expression, htype with
  | .literal value, _ =>
    intro levels depth hlevels
    have hread : Reads (primary scope owner (ofLevels scope owner levels)) depth _ (Word.Ends []) True _ :=
      (reads_primary_literal hspelled).narrow fun _ _ => trivial
    exact hread.congr_fits (by simp [Expression.levels, Clear]; omega)
  | .member path, .member hpath =>
    intro levels depth hlevels
    have hread : Reads (primary scope owner (ofLevels scope owner levels)) depth _ (Word.Ends []) True _ :=
      reads_primary_member hpath hspelled fun word hword => ⟨hword.1, hword.2.1⟩
    exact hread.congr_fits (by simp [Expression.levels, Clear]; omega)
  | .parameter name, _ =>
    intro levels depth hlevels
    have hread : Reads (primary scope owner (ofLevels scope owner levels)) depth _ (Word.Ends []) True _ :=
      (reads_primary_parameter hspelled).narrow fun _ _ => trivial
    exact hread.congr_fits (by simp [Expression.levels, Clear]; omega)
  | .not operand, .not hoperand hsuits =>
    exact readsBack_not (readsBack hspelled hoperand) (.not hoperand hsuits)
  | .binary operator left right, htype =>
    obtain ⟨leftType, rightType, hleft, hright⟩ := htype.exists_types
    exact readsBack_binary (readsBack hspelled.1 hleft) (readsBack hspelled.2 hright) hleft hright
      htype
  | .call method arguments, .call htypes hleast hmost hsuit =>
    exact readsBack_call (readsBack_all hspelled htypes) (.call htypes hleast hmost hsuit)

theorem readsBack_all {expressions : List Expression} {types : List ExpressionType}
    (hspelled : AllSpelled Word.IsToken expressions) (htypes : HaveTypes scope owner expressions types) :
    ∀ expression ∈ expressions, ReadsBack scope owner expression := by
  match expressions, htypes with
  | [], _ => simp
  | expression :: expressions, .cons hfirst hrest =>
    exact List.forall_mem_cons.mpr ⟨readsBack hspelled.1 hfirst, readsBack_all hspelled.2 hrest⟩

end

end Grammar

/-! ## Whole expressions -/

section

variable {scope : Scope} {owner : StructuredType} {expression : Expression} {follow : Word → Prop}

/-- The limit admits the levels of an expression, and no path in it is mistaken for a negation. -/
def Fits (limit : Nat) (expression : Expression) : Prop :=
  expression.levels ≤ limit ∧ expression.Clear

instance (limit : Nat) (expression : Expression) : Decidable (expression.Fits limit) :=
  inferInstanceAs (Decidable (expression.levels ≤ limit ∧ expression.Clear))

/-- An expression that does not look negated is read back, if the limit admits its levels. -/
theorem reads_parse {type : ExpressionType} (hspelled : expression.Spelled Word.IsToken)
    (htype : HasType scope owner expression type) (hplain : ¬ expression.LooksNegated)
    (hfollow : ∀ word, follow word → word.Ends BinaryOperator.all) :
    Reads (Expression.parse scope owner) 0 expression.words follow
      (expression.Fits scope.limits.expressionDepth) (TypedExpression.Of scope owner expression) := by
  have hread := Grammar.readsBack hspelled htype scope.limits.expressionDepth 0 rfl
  rw [Nat.zero_add] at hread
  exact Grammar.reads_disjunction hread
    ((ahead_not htype hplain).follow_mono fun _ _ => trivial) hfollow

theorem reads_parseFilter (hfilter : expression.IsFilter scope owner Word.IsToken)
    (hfollow : ∀ word, follow word → word.Ends BinaryOperator.all) :
    Reads (Expression.parseFilter scope owner) 0 expression.words follow
      (expression.Fits scope.limits.expressionDepth) (· = expression) := by
  obtain ⟨⟨type, htype, hsuits⟩, hspelled, hplain⟩ := hfilter
  apply (reads_parse hspelled htype hplain hfollow).bind_end (fun _ h => h)
  intro filter hread
  have haccepts : filter.type.accepts .boolean = true := by
    rw [ExpressionType.accepts_iff, htype.unique hread.2]
    exact hsuits
  rw [if_pos haccepts]
  exact reads_pure trivial hread.1

end

end Expression

end ODataOptions
