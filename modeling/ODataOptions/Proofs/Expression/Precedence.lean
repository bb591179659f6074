import ODataOptions.Proofs.Expression.Completeness
import ODataOptions.Proofs.Expression.Rendering
import ODataOptions.Proofs.Parser.Chains
import ODataOptions.Proofs.Parser.Whole
import ODataOptions.Proofs.Schema.Lookup

/-!
# Renderings of expressions are read back

The parser reads a well-typed expression from each of its renderings.  So the operators have the
precedences that the renderings give them, and parentheses that the precedences do not ask for never
change what is read.
-/

namespace ODataOptions

open ODataOptions.Parser

def Precedence.operators (precedence : Precedence) : List BinaryOperator :=
  BinaryOperator.all.filter (precedence ≤ ·.precedence)

/-- A looser precedence goes on with all operators of the tighter ones. -/
theorem Precedence.operators_tighter_subset (precedence : Precedence) :
    precedence.tighter.operators ⊆ precedence.operators := by
  cases precedence <;> decide

/-- What ends an operand ends a tighter one. -/
theorem Word.Ends.tighter {precedence : Precedence} {word : Word}
    (hends : word.Ends precedence.operators) : word.Ends precedence.tighter.operators :=
  hends.mono precedence.operators_tighter_subset

namespace BinaryOperator

theorem precedence_le_left (operator : BinaryOperator) :
    operator.precedence ≤ operator.leftPrecedence := by
  cases operator <;> decide

/-- An operator ends its left operand, unless this is a chain that goes on with it. -/
theorem not_mem_operators (operator : BinaryOperator) :
    operator ∉ operator.precedence.tighter.operators := by
  cases operator <;> decide

end BinaryOperator

namespace Expression

section Words

variable {scope : Scope} {owner : StructuredType} {levels : Nat} {precedence : Precedence}
  {expression : Expression} {type : ExpressionType} {words : List Word}

/-- A rendering begins like an operand.  Where a comparison or less is asked for, it does not begin with
the word `not`. -/
theorem Renders.exists_words (hrenders : Renders levels precedence expression words)
    (htype : HasType scope owner expression type) (hplain : expression.Plain) :
    ∃ word more, words = word :: more ∧ word.kind ∈ Grammar.operandKinds ∧
      (.comparison ≤ precedence → word.isWord "not" = false) := by
  induction hrenders generalizing type with
  | literal value =>
    refine ⟨_, _, rfl, Grammar.kind_mem_operandKinds value, fun _ => ?_⟩
    exact ahead_not htype (by exact id)
  | member path =>
    obtain ⟨word, more, hwords, hkind⟩ := Grammar.exists_words htype
    have hnot := ahead_not htype hplain
    rw [hwords] at hnot
    exact ⟨word, more, hwords, hkind, fun _ => hnot⟩
  | parameter name => exact ⟨_, _, rfl, .tail _ (.head _), fun _ => rfl⟩
  | call method =>
    refine ⟨_, _, rfl, .tail _ (.tail _ (.head _)), fun _ => ?_⟩
    cases method <;> rfl
  | not hloose =>
    refine ⟨_, _, rfl, .tail _ (.tail _ (.head _)), fun hle => ?_⟩
    exact absurd (Nat.le_trans hle hloose) (by decide)
  | @binary _ _ operator _ _ _ _ hloose _ _ ih =>
    obtain ⟨leftType, _, hleft, -⟩ := htype.exists_types
    obtain ⟨word, more, rfl, hkind, hnot⟩ := ih hleft hplain.1
    refine ⟨word, _, rfl, hkind, fun hle => hnot ?_⟩
    exact Nat.le_trans (Nat.le_trans hle hloose) operator.precedence_le_left
  | parentheses => exact ⟨_, _, rfl, .head _, fun _ => rfl⟩

/-- Each word of a rendering can be written by itself. -/
theorem Renders.writes_word (hrenders : Renders levels precedence expression words)
    (hspelled : expression.Spelled Word.IsToken) : ∀ word ∈ words, Writes word.text [word] := by
  induction hrenders with
  | literal value =>
    refine List.forall_mem_singleton.mpr ?_
    exact Literal.writes hspelled
  | member path =>
    refine Word.forall_mem_joined opens_slash.writes ?_
    refine List.forall_mem_map.mpr ?_
    intro member hmem
    refine List.forall_mem_singleton.mpr ?_
    exact writes_identifier (hspelled.1 member hmem)
  | parameter name =>
    obtain ⟨text, htoken, rfl⟩ := hspelled
    rw [htoken.parameterAlias_eq] at htoken
    exact List.forall_mem_singleton.mpr (htoken.writes (by decide) (by decide))
  | @call _ _ method arguments _ ih =>
    have hspelled' := List.forall_mem_map.mp (allSpelled_iff.mp hspelled)
    have harguments : ∀ word ∈ Word.joined .comma (arguments.map Prod.snd),
        Writes word.text [word] := by
      refine Word.forall_mem_joined opens_comma.writes (List.forall_mem_map.mpr fun argument hmem => ?_)
      exact ih argument hmem (hspelled' argument hmem)
    refine List.forall_mem_cons.mpr ⟨writes_identifier method.isToken_name, ?_⟩
    refine List.forall_mem_cons.mpr ⟨opens_openParen.writes, ?_⟩
    refine List.forall_mem_append.mpr ⟨harguments, ?_⟩
    exact List.forall_mem_singleton.mpr opens_closeParen.writes
  | not _ _ ih =>
    exact List.forall_mem_cons.mpr ⟨writes_identifier ⟨_, rfl⟩, ih hspelled⟩
  | @binary _ _ operator _ _ _ _ _ _ _ ihLeft ihRight =>
    refine List.forall_mem_append.mpr ⟨ihLeft hspelled.1, ?_⟩
    exact List.forall_mem_cons.mpr ⟨writes_identifier operator.isToken_keyword, ihRight hspelled.2⟩
  | parentheses _ ih =>
    refine List.forall_mem_cons.mpr ⟨opens_openParen.writes, ?_⟩
    exact List.forall_mem_append.mpr
      ⟨ih hspelled, List.forall_mem_singleton.mpr opens_closeParen.writes⟩

end Words

namespace Grammar

variable {scope : Scope} {owner : StructuredType} {inner : Grammar} {depth levels : Nat}
  {precedence loose tight : Precedence} {words : List Word} {P : TypedExpression → Prop}
  {expression : Expression} {type : ExpressionType}

def parser (scope : Scope) (owner : StructuredType) (inner : Grammar) :
    Precedence → Parser TypedExpression
  | .disjunction => disjunction scope owner inner
  | .conjunction => conjunction scope owner inner
  | .negation => negation scope owner inner
  | .comparison => comparison scope owner inner
  | .additive => additive scope owner inner
  | .multiplicative => multiplicative scope owner inner
  | .primary => primary scope owner inner

/-- The words are read as an operation of one precedence so far. -/
def ReadsOperations (scope : Scope) (owner : StructuredType) (inner : Grammar) (depth : Nat)
    (precedence : Precedence) (operators : List BinaryOperator) (words : List Word)
    (P : TypedExpression → Prop) : Prop :=
  ReadsChain (parser scope owner inner precedence.tighter) (oneOfWords BinaryOperator.keyword operators)
    TypedExpression.binary depth words (Word.Ends precedence.tighter.operators) P

/-- The words are read as an operand of the precedence.  If operations of the precedence are chains, one
of its operators may come next and go on with them. -/
def ReadsAs (scope : Scope) (owner : StructuredType) (inner : Grammar) (depth : Nat)
    (precedence : Precedence) (words : List Word) (P : TypedExpression → Prop) : Prop :=
  match precedence with
  | .disjunction => ReadsOperations scope owner inner depth .disjunction [.or] words P
  | .conjunction => ReadsOperations scope owner inner depth .conjunction [.and] words P
  | .additive => ReadsOperations scope owner inner depth .additive [.add, .sub] words P
  | .multiplicative =>
    ReadsOperations scope owner inner depth .multiplicative [.mul, .div, .mod] words P
  | .negation | .comparison | .primary =>
    Reads (parser scope owner inner precedence) depth words (Word.Ends precedence.operators) True P

theorem ReadsOperations.reads {operators : List BinaryOperator}
    (hread : ReadsOperations scope owner inner depth precedence operators words P)
    (hsubset : operators ⊆ precedence.operators) :
    Reads (operations operators (parser scope owner inner precedence.tighter)) depth words
      (Word.Ends precedence.operators) True P :=
  ReadsChain.reads hread (fun _ hends => hends.tighter)
    (declines_operators fun _ hends => hends.mono hsubset)

/-- Before a word that no operand of the precedence goes on with, the rule for it takes the words. -/
theorem ReadsAs.reads (hread : ReadsAs scope owner inner depth precedence words P) :
    Reads (parser scope owner inner precedence) depth words (Word.Ends precedence.operators) True P := by
  cases precedence with
  | disjunction | conjunction | additive | multiplicative =>
    exact ReadsOperations.reads hread (by decide)
  | negation | comparison | primary => exact hread

/-- From one precedence to the next looser one, the word `not` matters only above comparisons. -/
theorem ReadsAs.of_tighter (hread : ReadsAs scope owner inner depth precedence.tighter words P)
    (hnot : precedence = .negation →
      Ahead words (fun _ => True) fun word => word.isWord "not" = false) :
    ReadsAs scope owner inner depth precedence words P := by
  have htighter := hread.reads
  cases precedence with
  | disjunction | conjunction | additive | multiplicative => exact htighter.chain_begin
  | negation => exact reads_negation_none htighter ((hnot rfl).follow_mono fun _ _ => trivial)
  | comparison =>
    have hadditive : Reads (additive scope owner inner) depth words
        (Word.Ends Precedence.comparison.operators) True P :=
      htighter.narrow fun _ hends => hends.tighter
    exact reads_comparison_one hadditive fun _ hends => hends.mono (by decide)
  | primary => exact hread

theorem ReadsAs.loosen (hread : ReadsAs scope owner inner depth tight words P) (hle : loose ≤ tight)
    (hnot : .comparison ≤ tight →
      Ahead words (fun _ => True) fun word => word.isWord "not" = false) :
    ReadsAs scope owner inner depth loose words P := by
  apply Precedence.loosen (P := fun precedence => ReadsAs scope owner inner depth precedence words P)
    hle _ hread
  intro precedence _ _ hbelow hread
  apply hread.of_tighter
  rintro rfl
  exact hnot hbelow

/-- An operator between its operands. -/
theorem ReadsAs.binary {operator : BinaryOperator} {left right : Expression}
    {leftWords rightWords : List Word}
    (htype : HasType scope owner (.binary operator left right) type) (hne : rightWords ≠ [])
    (hleft : ReadsAs scope owner inner depth operator.leftPrecedence leftWords
      (TypedExpression.Of scope owner left))
    (hright : ReadsAs scope owner inner depth operator.rightPrecedence rightWords
      (TypedExpression.Of scope owner right)) :
    ReadsAs scope owner inner depth operator.precedence
      (leftWords ++ (.identifier operator.keyword :: rightWords))
      (TypedExpression.Of scope owner (.binary operator left right)) := by
  have hends : ∀ word, word = Word.identifier operator.keyword → word.Ends _ :=
    BinaryOperator.ends_keyword operator.not_mem_operators
  have hbehind := hright.reads
  have hextend : ∀ operators, operator ∈ operators →
      ReadsOperations scope owner inner depth operator.precedence operators leftWords
        (TypedExpression.Of scope owner left) →
      ReadsOperations scope owner inner depth operator.precedence operators
        (leftWords ++ ([.identifier operator.keyword] ++ rightWords))
        (TypedExpression.Of scope owner (.binary operator left right)) := by
    intro operators hmem hchain
    apply ReadsChain.extend hchain (reads_operator hmem) (ahead_true _ _) hbehind hne (hends _ rfl)
    intro _ _ hfirst hsecond
    exact binary_of htype hfirst hsecond
  cases operator with
  | or | and | add | sub | mul | div | mod => exact hextend _ (by decide) hleft
  | eq | ne | gt | ge | lt | le =>
    have hoperand : Reads (additive scope owner inner) depth rightWords
        (Word.Ends Precedence.comparison.operators) True (TypedExpression.Of scope owner right) :=
      hbehind.narrow fun _ hends => hends.tighter
    have htwo := reads_comparison_two htype (by decide) (hleft.reads.narrow hends) hoperand
    exact htwo.congr_fits (by simp)

/-- An operand that is read at the precedence at which it is rendered is read at a looser one too. -/
theorem ReadsAs.loosen_rendering (hread : ReadsAs scope owner inner depth tight words P)
    (hle : loose ≤ tight) (hrenders : Renders levels tight expression words)
    (htype : HasType scope owner expression type) (hplain : expression.Plain) :
    ReadsAs scope owner inner depth loose words P := by
  obtain ⟨word, more, rfl, -, hnot⟩ := hrenders.exists_words htype hplain
  exact hread.loosen hle hnot

/-- A call whose arguments are read one level further in. -/
theorem ReadsAs.call {method : Method} {arguments : List (Expression × List Word)}
    (hread : ∀ argument ∈ arguments, Reads inner.whole (depth + 1) argument.2 Closes True
      (TypedExpression.Of scope owner argument.1))
    (hrenders : ∀ argument ∈ arguments, Renders levels .disjunction argument.1 argument.2)
    (htype : HasType scope owner (.call method (arguments.map Prod.fst)) type)
    (hplain : (Expression.call method (arguments.map Prod.fst)).Plain)
    (hlimit : depth < scope.limits.expressionDepth) :
    ReadsAs scope owner inner depth .primary
      (.identifier method.name :: .openParen ::
        Word.joined .comma (arguments.map Prod.snd) ++ [.closeParen])
      (TypedExpression.Of scope owner (.call method (arguments.map Prod.fst))) := by
  have htypes := List.forall_mem_map.mp htype.exists_type_argument
  have hplain' := List.forall_mem_map.mp (allPlain_iff.mp hplain)
  have hfirst : ∀ argument ∈ arguments,
      Ahead argument.2 (fun _ => True) fun word => word.kind ∈ operandKinds := by
    intro argument hmem
    obtain ⟨argumentType, hargument⟩ := htypes argument hmem
    obtain ⟨word, more, hwords, hkind, -⟩ :=
      (hrenders argument hmem).exists_words hargument (hplain' argument hmem)
    exact hwords ▸ hkind
  have hcall : Reads (primary scope owner inner) depth _ (Word.Ends Precedence.primary.operators) _ _ :=
    reads_primary_call arguments htype hfirst fun _ => hread
  exact hcall.congr_fits (by simp [hlimit])

/-- The grammar reads a well-typed expression from each of its renderings that opens no more levels
than are left. -/
theorem readsAs_of_renders {words : List Word} {left : Nat}
    (hrenders : Renders levels precedence expression words)
    (htype : HasType scope owner expression type) (hspelled : expression.Spelled Word.IsToken)
    (hplain : expression.Plain) (hlevels : levels ≤ left)
    (hdepth : left + depth = scope.limits.expressionDepth) :
    ReadsAs scope owner (ofLevels scope owner left) depth precedence words
      (TypedExpression.Of scope owner expression) := by
  induction hrenders generalizing type left depth with
  | @literal levels precedence value =>
    have hrenders : Renders levels .primary (.literal value) [value.word] := .literal value
    have hread : ReadsAs scope owner (ofLevels scope owner left) depth .primary [value.word] _ :=
      reads_primary_literal hspelled
    exact hread.loosen_rendering precedence.le_primary hrenders htype hplain
  | @member levels precedence path =>
    have hrenders : Renders levels .primary (.member path) (Member.pathWords path) := .member path
    have hread : ReadsAs scope owner (ofLevels scope owner left) depth .primary
        (Member.pathWords path) (TypedExpression.Of scope owner (.member path)) := by
      cases htype with
      | member hpath => exact reads_primary_member hpath hspelled fun _ hends => ⟨hends.1, hends.2.1⟩
    exact hread.loosen_rendering precedence.le_primary hrenders htype hplain
  | @parameter levels precedence name =>
    have hrenders : Renders levels .primary (.parameter name) _ := .parameter name
    have hread : ReadsAs scope owner (ofLevels scope owner left) depth .primary _ _ :=
      reads_primary_parameter hspelled
    exact hread.loosen_rendering precedence.le_primary hrenders htype hplain
  | @call levels precedence method arguments harguments ih =>
    obtain ⟨left, rfl⟩ := Nat.exists_eq_add_of_le' (Nat.le_of_add_left_le hlevels)
    have htypes := List.forall_mem_map.mp htype.exists_type_argument
    have hspelled' := List.forall_mem_map.mp (allSpelled_iff.mp hspelled)
    have hplain' := List.forall_mem_map.mp (allPlain_iff.mp hplain)
    have hread : ∀ argument ∈ arguments, Reads (ofLevels scope owner (left + 1)).whole (depth + 1)
        argument.2 Closes True (TypedExpression.Of scope owner argument.1) := by
      intro argument hmem
      obtain ⟨argumentType, hargument⟩ := htypes argument hmem
      have hread := ih argument hmem hargument (hspelled' argument hmem) (hplain' argument hmem)
        (Nat.le_of_succ_le_succ hlevels) (by omega : left + (depth + 1) = _)
      exact hread.reads.narrow fun _ hcloses => hcloses.ends
    have hcall := ReadsAs.call hread harguments htype hplain (by omega)
    exact hcall.loosen_rendering precedence.le_primary (.call method harguments) htype hplain
  | @not levels precedence operand words hloose hoperand ih =>
    obtain ⟨left, rfl⟩ := Nat.exists_eq_add_of_le' (Nat.le_of_add_left_le hlevels)
    have hinner : Reads (ofLevels scope owner (left + 1)).operand (depth + 1) words
        (Word.Ends Precedence.negation.operators) True (TypedExpression.Of scope owner operand) := by
      cases htype with
      | not hexpression =>
        exact (ih hexpression hspelled hplain (Nat.le_of_succ_le_succ hlevels) (by omega)).reads
    have hread : ReadsAs scope owner (ofLevels scope owner (left + 1)) depth .negation _ _ :=
      reads_negation_not (Reads.nested (by omega) (reads_negated htype hinner))
    exact hread.loosen_rendering hloose (.not (Nat.le_refl _) hoperand) htype hplain
  | @binary levels precedence operator first second firstWords secondWords hloose hfirst hsecond
      ihFirst ihSecond =>
    obtain ⟨firstType, secondType, hfirstType, hsecondType⟩ := htype.exists_types
    have hne : secondWords ≠ [] := by
      obtain ⟨word, more, rfl, -⟩ := hsecond.exists_words hsecondType hplain.2
      exact List.cons_ne_nil word more
    have hread := ReadsAs.binary htype hne
      (ihFirst hfirstType hspelled.1 hplain.1 hlevels hdepth)
      (ihSecond hsecondType hspelled.2 hplain.2 hlevels hdepth)
    exact hread.loosen_rendering hloose (.binary (Nat.le_refl _) hfirst hsecond) htype hplain
  | @parentheses levels precedence expression words hinner ih =>
    obtain ⟨left, rfl⟩ := Nat.exists_eq_add_of_le' (Nat.le_of_add_left_le hlevels)
    have hcontent : Reads (ofLevels scope owner (left + 1)).whole (depth + 1) words Closes True
        (TypedExpression.Of scope owner expression) := by
      have hread := ih htype hspelled hplain (Nat.le_of_succ_le_succ hlevels)
        (by omega : left + (depth + 1) = _)
      exact hread.reads.narrow fun _ hcloses => hcloses.ends
    have hread : ReadsAs scope owner (ofLevels scope owner (left + 1)) depth .primary _ _ :=
      reads_primary_group (Reads.nested (by omega) (reads_group hcontent))
    exact hread.loosen_rendering precedence.le_primary (.parentheses hinner) htype hplain

end Grammar

section Whole

variable {scope : Scope} {owner : StructuredType} {levels : Nat} {expression : Expression}
  {type : ExpressionType} {words : List Word} (htype : HasType scope owner expression type)
  (hspelled : expression.Spelled Word.IsToken) (hplain : expression.Plain)
  (hrenders : Renders levels .disjunction expression words)
  (hlevels : levels ≤ scope.limits.expressionDepth)

include htype hspelled hplain hrenders hlevels

theorem reads_rendering :
    Reads (Expression.parse scope owner) 0 words Word.EndsValue True
      (TypedExpression.Of scope owner expression) := by
  have hread := Grammar.readsAs_of_renders hrenders htype hspelled hplain hlevels (Nat.add_zero _)
  exact hread.reads.narrow fun _ hword => Word.EndsItem.ends (.inr hword)

/-- From tokens of the words, the expression is parsed with its class, up to the end of the input. -/
theorem parse_words {found : List Token} (hwords : found.map Token.word = words) (stop : Nat) :
    ∃ span rest, Expression.parse scope owner (.ofTokens (found ++ [.endOfInput stop])) =
      .ok ⟨expression, type, span⟩ rest ∧ rest.current = .endOfInput stop := by
  have hkinds : ∀ word ∈ words, word.kind ≠ .endOfInput :=
    (writes_spaced (hrenders.writes_word hspelled)).written.kind_ne_endOfInput
  obtain ⟨rest, hend, hok, -⟩ :=
    (reads_rendering htype hspelled hplain hrenders hlevels).on_list hkinds hwords stop
  obtain ⟨⟨_, found, span⟩, hrun, rfl, hfound⟩ := hok trivial
  obtain rfl := hfound.unique htype
  exact ⟨span, rest, hrun, hend⟩

end Whole

/-- Every well-typed expression is parsed from each of its renderings, with the class that the
judgement assigns to it and up to the end of the input, wherever its words stand.  There is a text of
these words: the one that has a blank between any two of them.  Only paths that begin with a member of
the name `not` are left out. -/
theorem parse_rendering (scope : Scope) (owner : StructuredType) (levels : Nat)
    (expression : Expression) (type : ExpressionType) (words : List Word)
    (htype : HasType scope owner expression type) (hspelled : expression.Spelled Word.IsToken)
    (hplain : expression.Plain) (hrenders : Renders levels .disjunction expression words)
    (hlevels : levels ≤ scope.limits.expressionDepth) :
    (∀ found stop, found.map Token.word = words →
      ∃ span rest, Expression.parse scope owner (.ofTokens (found ++ [.endOfInput stop])) =
        .ok ⟨expression, type, span⟩ rest ∧ rest.current = .endOfInput stop) ∧
    ∃ found stop, tokensOrFault (Word.spaced words) = .ok (found ++ [.endOfInput stop]) ∧
      found.map Token.word = words := by
  constructor
  · exact fun found stop hwords => parse_words htype hspelled hplain hrenders hlevels hwords stop
  · exact (writes_spaced (hrenders.writes_word hspelled)).written.tokensOrFault_eq

/-- Multiplication comes before addition, both before comparisons, and these before `not` and `or`. -/
theorem parse_rendering_shop :
    ∃ expression : Expression,
      expression.print = "(((Age add (2 mul 3)) gt 4) or (not (Age eq 5)))" ∧
      ∃ found, tokensOrFault "Age add 2 mul 3 gt 4 or not Age eq 5" = .ok found ∧
        ∃ span rest, Expression.parse { schema := .shop } .shopCustomer (.ofTokens found) =
          .ok ⟨expression, .boolean, span⟩ rest ∧ rest.current.kind = .endOfInput := by
  have hage : HasType { schema := .shop } .shopCustomer (.member [.property .shopAge]) .numeric :=
    .member (.last (.property rfl))
  have hspelled : (Expression.member [.property .shopAge]).Spelled Word.IsToken := by
    refine ⟨List.forall_mem_singleton.mpr ⟨_, rfl⟩, fun first hmem => ?_⟩
    obtain rfl := Option.some.inj hmem
    rfl
  have hplain : (Expression.member [.property .shopAge]).Plain := (by decide : ¬ "Age" = "not")
  have hproduct : HasType { schema := .shop } .shopCustomer
      (.binary .mul (.literal (.integer 2)) (.literal (.integer 3))) .numeric :=
    .arithmetic (by decide) (.literal _) (.literal _) (.inl rfl) (.inl rfl)
  have hsum := HasType.arithmetic (.head _) hage hproduct (.inl rfl) (.inl rfl)
  have hleft := HasType.ordering (.head _) hsum (.literal (.integer 4)) (.inr (.inr ⟨rfl, by decide⟩))
    (by decide) (by decide)
  have hright := HasType.equality (.head _) hage (.literal (.integer 5))
    (.inr (.inr ⟨rfl, by decide⟩))
  have htype := HasType.logical (.head _) hleft (.not hright (.inl rfl)) (.inl rfl) (.inl rfl)
  obtain ⟨hparse, found, stop, htokens, hwords⟩ := parse_rendering { schema := .shop } .shopCustomer 1
    _ .boolean _ htype ⟨⟨⟨hspelled, rfl, rfl⟩, rfl⟩, hspelled, rfl⟩
    ⟨⟨⟨hplain, trivial, trivial⟩, trivial⟩, hplain, trivial⟩
    (.binary (by decide) (.binary (by decide) (.binary (by decide) (.member _)
      (.binary (by decide) (.literal _) (.literal _))) (.literal _))
      (.not (by decide) (.binary (by decide) (.member _) (.literal _)))) (by decide)
  obtain ⟨span, rest, hrun, hend⟩ := hparse found stop hwords
  exact ⟨_, by decide +kernel, _, htokens, span, rest, hrun, by rw [hend]; rfl⟩

end Expression

end ODataOptions
