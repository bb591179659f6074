import ODataOptions.OrderBy.Parser
import ODataOptions.Expression.Filter
import ODataOptions.Proofs.Expression.Inlining
import ODataOptions.Proofs.Expression.Mirrors
import ODataOptions.Proofs.Parser.Tracks
import ODataOptions.Proofs.Token.Respelling

/-!
# Expressions in two runs side by side

The two runs resolve names against the same schema under the same limits, but may know different
parameter aliases, and the second one may have literals where the first one has aliases.  Its
expressions are then those of the first run with these literals in them.  The class of an expression
is the same in both, or, in a gradual comparison, unknown in the second one.
-/

namespace ODataOptions

open ODataOptions.Parser ODataOptions.Expression.Grammar

/-- A run that keeps the aliases knows as much of each of them. -/
theorem Scope.parameterType_kept (scope : Scope) (lost : Prop) (name : String) :
    { scope with aliases := scope.aliases : Scope }.parameterType name = scope.parameterType name ∨
      lost ∧ { scope with aliases := scope.aliases : Scope }.parameterType name = .untyped :=
  .inl rfl

/-- How the inputs and the scopes of two runs correspond. -/
structure ScopedComparison extends Comparison where
  scope : Scope
  /-- The parameter aliases of the second run. -/
  aliases' : AliasTable
  /-- The aliases that the second run has literals for. -/
  inlining : Inlining scope
  /-- Whether the second run may lose the class of an alias. -/
  gradual : Prop
  respells : ∀ {token token'}, Tokens token token' →
    (inlining.apply token).word.Respells token'.word
  parameterType : ∀ name,
    { scope with aliases := aliases' : Scope }.parameterType name = scope.parameterType name ∨
      gradual ∧ { scope with aliases := aliases' : Scope }.parameterType name = .untyped
  /-- A literal that is an identifier could be taken for a name. -/
  strict_inlining : strict → ∀ {name token}, inlining.token? name = some token →
    token.kind ≠ .identifier
  strict_gradual : strict → ¬ gradual

namespace ScopedComparison

variable {C : ScopedComparison}

def scope' (C : ScopedComparison) : Scope := { C.scope with aliases := C.aliases' }

@[simp]
theorem scope'_schema : C.scope'.schema = C.scope.schema := rfl

@[simp]
theorem scope'_limits : C.scope'.limits = C.scope.limits := rfl

/-! ## Classes -/

/-- The class is the same in both runs, or lost in the second one. -/
def Types (C : ScopedComparison) (type type' : ExpressionType) : Prop :=
  type' = type ∨ C.gradual ∧ type' = .untyped

/-- What holds of an unknown class is enough in a gradual comparison. -/
theorem entails_of_gradual (hgradual : C.gradual) {condition condition' : Prop}
    (hholds : condition') : C.Entails condition condition' :=
  ⟨fun _ => hholds, fun hstrict => absurd hgradual (C.strict_gradual hstrict)⟩

namespace Types

variable {type type' left left' right right' : ExpressionType}

theorem refl (type : ExpressionType) : C.Types type type := .inl rfl

/-- A class that was lost is accepted wherever it was accepted before. -/
theorem accepts (htype : C.Types type type') (expected : ExpressionType) :
    C.Entails (type.accepts expected = true) (type'.accepts expected = true) := by
  rcases htype with rfl | ⟨hgradual, rfl⟩
  · exact .of_iff .rfl
  · exact entails_of_gradual hgradual (by simp [ExpressionType.accepts])

theorem ne_structured (htype : C.Types type type') :
    C.Entails (type ≠ .structured) (type' ≠ .structured) := by
  rcases htype with rfl | ⟨hgradual, rfl⟩
  · exact .of_iff .rfl
  · exact entails_of_gradual hgradual (by decide)

theorem comparable (hleft : C.Types left left') (hright : C.Types right right') :
    C.Entails (left.comparable right = true) (left'.comparable right' = true) := by
  rcases hleft with rfl | ⟨hgradual, rfl⟩
  · rcases hright with rfl | ⟨hgradual, rfl⟩
    · exact .of_iff .rfl
    · exact entails_of_gradual hgradual (by simp [ExpressionType.comparable])
  · exact entails_of_gradual hgradual (by simp [ExpressionType.comparable])

end Types

/-! ## Checks of operands -/

/-- The expression of the second run is that of the first one with literals for some aliases. -/
structure Typed (C : ScopedComparison) (typed typed' : TypedExpression) : Prop where
  expression : typed'.expression = typed.expression.withLiterals C.inlining.literal?
  type : C.Types typed.type typed'.type
  span : C.Places typed.span typed'.span

section Checks

variable {left left' right right' operand operand' : TypedExpression}

/-- A check that the first run passes is passed by the second one. -/
theorem require_results (hoperand : C.Typed operand operand') (operator : String)
    (expected : ExpressionType) :
    C.Results Eq (operand.require operator expected) (operand'.require operator expected) :=
  .check (hoperand.type.accepts expected) rfl ⟨rfl, hoperand.span, .none⟩

theorem requirePrimitive_results (hoperand : C.Typed operand operand') (operator : String) :
    C.Results Eq (operand.requirePrimitive operator) (operand'.requirePrimitive operator) := by
  rw [TypedExpression.requirePrimitive, TypedExpression.requirePrimitive, ← ite_not,
    ← ite_not (operand'.type = _)]
  exact .check hoperand.type.ne_structured rfl ⟨rfl, hoperand.span, .none⟩

theorem requireComparable_results (operator : BinaryOperator) (hleft : C.Typed left left')
    (hright : C.Typed right right') :
    C.Results Eq (TypedExpression.requireComparable operator left right)
      (TypedExpression.requireComparable operator left' right') :=
  .check (hleft.type.comparable hright.type) rfl ⟨rfl, C.cover hleft.span hright.span, .none⟩

theorem operationType_results (operator : BinaryOperator) (hleft : C.Typed left left')
    (hright : C.Typed right right') :
    C.Results Eq (TypedExpression.operationType operator left right)
      (TypedExpression.operationType operator left' right') := by
  cases operator with
  | or | and | add | sub | mul | div | mod =>
    apply (require_results hleft _ _).bind
    intro _ _ _
    apply (require_results hright _ _).bind
    intro _ _ _
    exact .pure rfl
  | eq | ne =>
    apply (requireComparable_results _ hleft hright).bind
    intro _ _ _
    exact .pure rfl
  | gt | ge | lt | le =>
    apply (requireComparable_results _ hleft hright).bind
    intro _ _ _
    apply (requirePrimitive_results hleft _).bind
    intro _ _ _
    apply (requirePrimitive_results hright _).bind
    intro _ _ _
    exact .pure rfl

/-- An operation keeps up if its operands do. -/
theorem binary_results (operator : BinaryOperator) (hleft : C.Typed left left')
    (hright : C.Typed right right') :
    C.Results C.Typed (TypedExpression.binary operator left right)
      (TypedExpression.binary operator left' right') := by
  refine (operationType_results operator hleft hright).bind ?_
  rintro type _ rfl
  refine .pure ⟨?_, .refl type, C.cover hleft.span hright.span⟩
  rw [Expression.withLiterals, hleft.expression, hright.expression]

theorem requireArguments_results (method : Method) {arguments arguments' : List TypedExpression}
    (harguments : List.Forall₂ C.Typed arguments arguments') (parameters : List ExpressionType) :
    C.Results Eq (TypedExpression.requireArguments method arguments parameters)
      (TypedExpression.requireArguments method arguments' parameters) := by
  induction harguments generalizing parameters with
  | nil => exact .ok rfl
  | cons hargument _ ih =>
    cases parameters with
    | nil => exact .ok rfl
    | cons expected parameters =>
      apply (require_results hargument _ expected).bind
      intro _ _ _
      exact ih parameters

theorem map_expression {arguments arguments' : List TypedExpression}
    (harguments : List.Forall₂ C.Typed arguments arguments') :
    arguments'.map TypedExpression.expression =
      (arguments.map TypedExpression.expression).map
        (Expression.withLiterals C.inlining.literal?) := by
  induction harguments with
  | nil => rfl
  | cons hargument _ ih => rw [List.map_cons, List.map_cons, List.map_cons, ih, hargument.expression]

theorem call_results (method : Method) {arguments arguments' : List TypedExpression}
    (harguments : List.Forall₂ C.Typed arguments arguments') {span span' : Span}
    (hspan : C.Places span span') :
    C.Results C.Typed (TypedExpression.call method arguments span)
      (TypedExpression.call method arguments' span') := by
  rw [TypedExpression.call, TypedExpression.call, ← harguments.length_eq]
  split
  · apply (requireArguments_results method harguments _).bind
    intro _ _ _
    refine .pure ⟨?_, .refl _, hspan⟩
    rw [map_expression harguments, Expression.withLiterals, Expression.allWithLiterals_eq_map]
  · exact .error fun _ => ⟨rfl, hspan, .none⟩

theorem ofToken_results {token token' : Token} (hword : token.word = token'.word)
    (hspan : C.Places token.span token'.span) :
    C.Results Eq (Literal.ofToken token) (Literal.ofToken token') := by
  obtain ⟨kind, text, span⟩ := token
  obtain ⟨kind', text', span'⟩ := token'
  cases hword
  cases kind with
  | integer =>
    simp only [Literal.ofToken]
    split
    · exact .ok rfl
    · exact .error fun _ => ⟨rfl, hspan, .none⟩
  | _ => exact .ok rfl

end Checks

/-! ## Tokens -/

section Tokens

variable {token token' : Token}

/-- Tokens at the same position are the same word, or the second one is the literal that replaces the
alias that the first one names. -/
theorem respells_or_inlined (htoken : C.Tokens token token') :
    token.word.Respells token'.word ∧
        (token.kind = .parameterAlias → C.inlining.token? (parameterName token.text) = none) ∨
      token.kind = .parameterAlias ∧ ∃ found,
        C.inlining.token? (parameterName token.text) = some found ∧ found.word = token'.word := by
  have hrespells := C.respells htoken
  rw [Inlining.apply] at hrespells
  by_cases hkind : token.kind = .parameterAlias
  · rw [if_pos hkind] at hrespells
    cases hfound : C.inlining.token? (parameterName token.text) with
    | none =>
      rw [hfound] at hrespells
      exact .inl ⟨hrespells, fun _ => rfl⟩
    | some found =>
      rw [hfound] at hrespells
      obtain ⟨value, hvalue, -⟩ := Inlining.exists_literal hfound
      have hplain : ∀ kind ∈ .identifier :: literalKinds, kind.isKeyword = false := by decide
      exact .inr ⟨hkind, found, rfl, hrespells.eq_of_plain (hplain _ (Token.kind_mem_of_literal? hvalue))⟩
  · rw [if_neg hkind] at hrespells
    exact .inl ⟨hrespells, fun h => absurd h hkind⟩

/-- No mark is replaced or introduced. -/
theorem sameIsA {kind : TokenKind} (hkind : kind ∉ .parameterAlias :: .identifier :: literalKinds)
    (hplain : kind.contextualWords? = none) : C.SameIsA kind := by
  intro token token' htoken
  rcases respells_or_inlined htoken with ⟨hrespells, -⟩ | ⟨halias, found, hfound, hword⟩
  · exact hrespells.isA_eq kind
  · obtain ⟨value, hvalue, -⟩ := Inlining.exists_literal hfound
    have hkind' : token'.kind ≠ kind := by
      rw [← Token.word_kind, ← hword]
      rintro rfl
      exact hkind (List.mem_cons_of_mem _ (Token.kind_mem_of_literal? hvalue))
    have hne : token.kind ≠ kind := by
      rw [halias]
      rintro rfl
      exact hkind List.mem_cons_self
    simp [Token.isA, hplain, hne, hkind']

/-- No word but `null`, `true` and `false` is introduced. -/
theorem sameIsWord {word : String} (hword : isConstantName word = false) : C.SameIsWord word := by
  intro token token' htoken
  rcases respells_or_inlined htoken with ⟨hrespells, -⟩ | ⟨halias, found, hfound, hsame⟩
  · exact hrespells.isWord_eq word
  · obtain ⟨value, hvalue, -⟩ := Inlining.exists_literal hfound
    have hother : token'.isWord word = false := by
      rw [← Token.isWord_word, ← hsame, Token.isWord_word, Bool.eq_false_iff]
      intro hisWord
      obtain ⟨hkind, htext⟩ := Bool.and_eq_true_iff.mp hisWord
      have hconstant := Token.isConstantName_of_literal? hvalue (of_decide_eq_true hkind)
      rw [of_decide_eq_true htext, hword] at hconstant
      cases hconstant
    rw [hother, Token.isWord, halias]
    rfl

/-- An identifier of the first run is the same in the second one. -/
theorem word_eq_of_identifier (htoken : C.Tokens token token') (hkind : token.kind = .identifier) :
    token.word = token'.word := by
  rcases respells_or_inlined htoken with ⟨hrespells, -⟩ | ⟨halias, -⟩
  · exact hrespells.eq_of_plain (by rw [Token.word_kind, hkind]; rfl)
  · rw [hkind] at halias
    cases halias

/-- In a strict comparison the second run has no other identifiers than the first one. -/
theorem identifier_entails (htoken : C.Tokens token token') :
    C.Entails (token.isA .identifier = true) (token'.isA .identifier = true) := by
  rcases respells_or_inlined htoken with ⟨hrespells, -⟩ | ⟨halias, found, hfound, hsame⟩
  · have hsame : token.isA .identifier = token'.isA .identifier := hrespells.isA_eq .identifier
    exact .of_iff (by rw [hsame])
  · constructor
    · intro hidentifier
      rw [(Token.isA_iff_kind_eq rfl).mp hidentifier] at halias
      cases halias
    · intro hstrict hidentifier
      have hkind : found.kind = .identifier := by
        rw [← Token.word_kind, hsame]
        exact (Token.isA_iff_kind_eq rfl).mp hidentifier
      exact absurd hkind (C.strict_inlining hstrict hfound)

end Tokens

/-- A name is the same in both runs. -/
theorem tracks_identifier :
    C.Tracks (fun token token' => C.Tokens token token' ∧ token.word = token'.word)
      (expect .identifier) (expect .identifier) :=
  (Comparison.Tracks.expect_of_entails fun _ _ => identifier_entails).imp
    fun _ _ ⟨htoken, hisA⟩ =>
      ⟨htoken, word_eq_of_identifier htoken ((Token.isA_iff_kind_eq rfl).mp hisA)⟩

theorem tracks_accept {kind : TokenKind}
    (hkind : kind ∉ .parameterAlias :: .identifier :: literalKinds)
    (hplain : kind.contextualWords? = none) : C.Tracks Eq (accept kind) (accept kind) :=
  .accept (sameIsA hkind hplain)

theorem tracks_expect {kind : TokenKind}
    (hkind : kind ∉ .parameterAlias :: .identifier :: literalKinds)
    (hplain : kind.contextualWords? = none) : C.Tracks C.Tokens (expect kind) (expect kind) :=
  (Comparison.Tracks.expect (sameIsA hkind hplain)).imp fun _ _ => And.left

/-! ## Members -/

variable {owner : StructuredType}

theorem tracks_continued (member : Member) :
    C.Tracks Eq (memberSegment.continued member) (memberSegment.continued member) := by
  rw [memberSegment.continued]
  split
  · apply (tracks_accept (by decide) rfl).bind_eq
    intro _
    exact .pure rfl
  · exact .pure rfl

theorem tracks_memberSegment (owner : StructuredType) :
    C.Tracks Eq (memberSegment C.scope owner) (memberSegment C.scope' owner) := by
  apply tracks_identifier.bind
  rintro token token' ⟨htoken, hword⟩
  have htext : token'.text = token.text := (congrArg Word.text hword).symm
  rw [htext, scope'_schema]
  cases C.scope.schema.property? owner token.text with
  | some property => exact tracks_continued _
  | none =>
    cases C.scope.schema.navigation? owner token.text with
    | none => exact .throw ⟨rfl, C.span htoken, .none⟩
    | some navigation =>
      exact .ite .rfl (.throw ⟨rfl, C.span htoken, .none⟩) (tracks_continued _)

/-- Paths are the same in both runs, since no part of them is an alias. -/
theorem tracks_memberPath :
    C.Tracks C.Typed (memberPath C.scope owner) (memberPath C.scope' owner) := by
  apply Comparison.Tracks.current.bind
  intro first first' hfirst
  apply (Comparison.Tracks.unfold_eq tracks_memberSegment owner).bind_eq
  intro path
  exact Comparison.Tracks.get.map fun cursor cursor' hcursors =>
    ⟨rfl, .refl _, C.cover (C.span hfirst) hcursors.previousSpan⟩

/-! ## Operands -/

section Operands

variable {cursor cursor' : Cursor} (hcursors : C.Cursors cursor cursor')

include hcursors

theorem outcomes_literal (hword : cursor.current.word = cursor'.current.word) :
    C.Outcomes C.Typed (literal cursor) (literal cursor') := by
  have hvalue := ofToken_results hword (C.span hcursors.current)
  rw [literal_run, literal_run, ← ExpressionType.ofToken_congr hword]
  generalize Literal.ofToken cursor.current = value, Literal.ofToken cursor'.current = value'
    at hvalue
  cases hvalue with
  | ok hsame => exact .ok ⟨by rw [hsame]; rfl, .refl _, C.span hcursors.current⟩ hcursors.advance
  | error hfault => exact .error hfault fun _ => hcursors.advance
  | gained hlax => exact .gained hlax

theorem outcomes_parameter (hword : cursor.current.word = cursor'.current.word)
    (hkept : C.inlining.token? (parameterName cursor.current.text) = none) :
    C.Outcomes C.Typed (parameter C.scope cursor) (parameter C.scope' cursor') := by
  have htext : cursor'.current.text = cursor.current.text := (congrArg Word.text hword).symm
  rw [parameter_run, parameter_run, htext]
  refine .ok ⟨?_, C.parameterType _, C.span hcursors.current⟩ hcursors.advance
  rw [Expression.withLiterals, Inlining.literal?, hkept]
  rfl

/-- An alias stands for the literal that replaces it. -/
theorem outcomes_inlined {found : Token} {owner : StructuredType} {inner : Expression.Grammar}
    (hfound : C.inlining.token? (parameterName cursor.current.text) = some found)
    (hword : found.word = cursor'.current.word) :
    C.Outcomes C.Typed (parameter C.scope cursor) (primary C.scope' owner inner cursor') := by
  obtain ⟨value, hvalue, hliteral⟩ := Inlining.exists_literal hfound
  have hvalue' : cursor'.current.literal? = some value := by
    rw [← Token.literal?_congr hword, hvalue]
  rw [parameter_run, primary_of_literal hvalue', Inlining.parameterType_eq hfound,
    ExpressionType.ofToken_congr hword]
  refine .ok ⟨?_, .refl _, C.span hcursors.current⟩ hcursors.advance
  rw [Expression.withLiterals, hliteral]
  rfl

end Operands

/-! ## Operations -/

theorem tracks_operator (operators : List BinaryOperator) :
    C.Tracks Eq (oneOfWords BinaryOperator.keyword operators)
      (oneOfWords BinaryOperator.keyword operators) :=
  .oneOfWords fun operator _ => sameIsWord (by cases operator <;> decide)

/-- A chain keeps up operand by operand. -/
theorem tracks_operations {operand operand' : Parser TypedExpression}
    (hoperand : C.Tracks C.Typed operand operand') (operators : List BinaryOperator) :
    C.Tracks C.Typed (operations operators operand) (operations operators operand') :=
  .chain hoperand (tracks_operator operators) fun operator _ _ _ _ => binary_results operator

/-! ## The grammar -/

/-- The parts that a grammar refers back to keep up with one another. -/
structure Tracked (C : ScopedComparison) (inner inner' : Expression.Grammar) : Prop where
  whole : C.Tracks C.Typed inner.whole inner'.whole
  operand : C.Tracks C.Typed inner.operand inner'.operand

namespace Tracked

variable {inner inner' : Expression.Grammar} (hinner : C.Tracked inner inner')

include hinner

theorem group : C.Tracks C.Typed (group inner) (group inner') := by
  apply (tracks_expect (by decide) rfl).bind
  intro first first' hfirst
  apply hinner.whole.bind
  intro content content' hcontent
  exact (tracks_expect (by decide) rfl).map fun last last' hlast =>
    ⟨hcontent.expression, hcontent.type, C.cover (C.span hfirst) (C.span hlast)⟩

theorem arguments :
    C.Tracks (List.Forall₂ C.Typed) (arguments inner) (arguments inner') := by
  have hclose : C.SameIsA .closeParen := sameIsA (by decide) rfl
  apply Comparison.Tracks.current.bind
  intro token token' htoken
  exact .ite (by rw [hclose _ _ htoken]) (.pure .nil)
    (.separated hinner.whole (sameIsA (by decide) rfl))

section Names

variable {cursor cursor' : Cursor} (hcursors : C.Cursors cursor cursor')
  (hkind : cursor.current.kind = .identifier)

include hcursors hkind

theorem methodCall :
    C.Outcomes C.Typed (methodCall inner cursor) (methodCall inner' cursor') := by
  have hname := hcursors.current
  have htext : cursor'.current.text = cursor.current.text :=
    (congrArg Word.text (word_eq_of_identifier hname hkind)).symm
  rw [Expression.Grammar.methodCall, Expression.Grammar.methodCall, bind_run, bind_run, current_run,
    current_run]
  dsimp only
  rw [htext]
  cases Method.ofName? cursor.current.text with
  | none =>
    refine Comparison.Tracks.throw ?_ hcursors
    exact ⟨rfl, C.span hname, .none⟩
  | some method =>
    refine (tracks_identifier.bind fun _ _ _ => ?_) hcursors
    apply (tracks_expect (by decide) rfl).bind
    intro _ _ _
    apply hinner.arguments.bind
    intro arguments arguments' harguments
    apply (tracks_expect (by decide) rfl).bind
    intro last last' hlast
    exact .ofExcept (call_results method harguments (C.cover (C.span hname) (C.span hlast)))

theorem named (owner : StructuredType) :
    C.Outcomes C.Typed (named C.scope owner inner cursor) (named C.scope' owner inner' cursor') := by
  have hname := hcursors.current
  have hword := word_eq_of_identifier hname hkind
  have htext : cursor'.current.text = cursor.current.text := (congrArg Word.text hword).symm
  have hisA : ∀ kind, cursor'.current.isA kind = cursor.current.isA kind := by
    intro kind
    rw [← Token.isA_word, ← hword, Token.isA_word]
  have hpeek : cursor'.peek.kind = .openParen ↔ cursor.peek.kind = .openParen := by
    have hopen : C.SameIsA .openParen := sameIsA (by decide) rfl
    rw [← Token.isA_iff_kind_eq rfl, ← hopen _ _ hcursors.peek, Token.isA_iff_kind_eq rfl]
  rw [named_run, named_run, hisA, hisA, htext]
  split
  · exact .ok ⟨rfl, .refl _, C.span hname⟩ hcursors.advance
  · split
    · exact .ok ⟨rfl, .refl _, C.span hname⟩ hcursors.advance
    · split
      · next hparen =>
        rw [if_pos (hpeek.mpr hparen)]
        exact .nested hcursors (hinner.methodCall (hcursors.mapDepth (· + 1)) hkind)
      · next hparen =>
        rw [if_neg (mt hpeek.mp hparen)]
        exact tracks_memberPath hcursors

end Names

theorem primary (owner : StructuredType) :
    C.Tracks C.Typed (primary C.scope owner inner) (primary C.scope' owner inner') := by
  intro cursor cursor' hcursors
  rcases respells_or_inlined hcursors.current with ⟨hrespells, hkept⟩ | ⟨halias, found, hfound, hword⟩
  · have hkinds : cursor'.current.kind = cursor.current.kind := hrespells.kind.symm
    have hliteral : cursor.current.kind ∈ literalKinds →
        C.Outcomes C.Typed (literal cursor) (literal cursor') := by
      intro hkind
      have hplain : ∀ kind ∈ literalKinds, kind.isKeyword = false := by decide
      exact outcomes_literal hcursors (hrespells.eq_of_plain (hplain _ hkind))
    rw [primary_run, primary_run, hkinds, scope'_limits]
    cases hkind : cursor.current.kind with
    | openParen => exact hinner.group.nested _ hcursors
    | integer | decimal | string | date | dateTimeOffset | guid =>
      exact hliteral (by rw [hkind]; decide)
    | parameterAlias =>
      have hplain : cursor.current.kind.isKeyword = false := by rw [hkind]; rfl
      exact outcomes_parameter hcursors (hrespells.eq_of_plain hplain) (hkept hkind)
    | identifier => exact hinner.named hcursors hkind owner
    | _ => exact Comparison.Tracks.unexpected _ hcursors
  -- the two runs go through different branches only here
  · rw [primary_run cursor, halias]
    exact outcomes_inlined hcursors hfound hword

variable (owner : StructuredType)

theorem additive :
    C.Tracks C.Typed (additive C.scope owner inner) (additive C.scope' owner inner') :=
  tracks_operations (tracks_operations (hinner.primary owner) _) _

theorem comparison :
    C.Tracks C.Typed (comparison C.scope owner inner) (comparison C.scope' owner inner') := by
  apply (hinner.additive owner).bind
  intro left left' hleft
  apply (tracks_operator _).bind_eq
  intro operator?
  cases operator? with
  | none => exact .pure hleft
  | some operator =>
    apply (hinner.additive owner).bind
    intro right right' hright
    exact .ofExcept (binary_results operator hleft hright)

theorem negated : C.Tracks C.Typed (negated inner) (negated inner') := by
  apply tracks_identifier.bind
  rintro word word' ⟨hword, _⟩
  apply hinner.operand.bind
  intro operand operand' hoperand
  apply (Comparison.Tracks.ofExcept (require_results hoperand _ _)).bind_eq
  intro _
  refine .pure ?_
  refine ⟨?_, .refl _, C.cover (C.span hword) hoperand.span⟩
  rw [Expression.withLiterals, hoperand.expression]

theorem negation :
    C.Tracks C.Typed (negation C.scope owner inner) (negation C.scope' owner inner') := by
  have hnot : C.SameIsWord "not" := sameIsWord (by decide)
  apply Comparison.Tracks.current.bind
  intro token token' htoken
  exact .ite (by rw [hnot _ _ htoken]) (hinner.negated.nested _) (hinner.comparison owner)

theorem disjunction :
    C.Tracks C.Typed (disjunction C.scope owner inner) (disjunction C.scope' owner inner') :=
  tracks_operations (tracks_operations (hinner.negation owner) _) _

end Tracked

theorem tracked_ofLevels (owner : StructuredType) (levels : Nat) :
    C.Tracked (ofLevels C.scope owner levels) (ofLevels C.scope' owner levels) := by
  induction levels with
  | zero => exact ⟨.failHere rfl, .failHere rfl⟩
  | succ levels ih => exact ⟨ih.disjunction owner, ih.negation owner⟩

/-- The second run keeps up with the first one, up to the literals that replace aliases. -/
theorem tracks_parse (owner : StructuredType) :
    C.Tracks C.Typed (Expression.parse C.scope owner) (Expression.parse C.scope' owner) :=
  (tracked_ofLevels owner _).whole

/-! ## Filters and sort keys -/

section Plain

variable (hplain : ∀ name, C.inlining.token? name = none)

include hplain

/-- Where no alias is replaced, both runs are over the same words. -/
theorem respelled : C.Respelled := by
  intro token token' htoken
  rcases respells_or_inlined htoken with ⟨hrespells, -⟩ | ⟨-, found, hfound, -⟩
  · exact hrespells
  · rw [hplain] at hfound
    cases hfound

/-- Where no alias is inlined, both expressions are equal. -/
theorem Typed.expression_eq {typed typed' : TypedExpression} (htyped : C.Typed typed typed') :
    typed.expression = typed'.expression := by
  have hnone : C.inlining.literal? = fun _ => none := by
    funext name
    rw [Inlining.literal?, hplain]
    rfl
  rw [htyped.expression, hnone, Expression.withLiterals_none]

theorem tracks_parseFilter (owner : StructuredType) :
    C.Tracks Eq (Expression.parseFilter C.scope owner) (Expression.parseFilter C.scope' owner) := by
  apply (tracks_parse owner).bind
  intro filter filter' hfilter
  exact .guard (hfilter.type.accepts .boolean) (.pure (Typed.expression_eq hplain hfilter))
    ⟨rfl, hfilter.span, .none⟩

theorem tracks_parseOrderByItem (owner : StructuredType) :
    C.Tracks Eq (OrderByItem.parse C.scope owner) (OrderByItem.parse C.scope' owner) := by
  apply (tracks_parse owner).bind
  intro key key' hkey
  dsimp only
  rw [← ite_not, ← ite_not (key'.type = _)]
  refine .guard hkey.type.ne_structured ?_ ⟨rfl, hkey.span, .none⟩
  have hdirection : C.Tracks Eq (oneOfWords (if · then "desc" else "asc") [true, false])
      (oneOfWords (if · then "desc" else "asc") [true, false]) :=
    .oneOfWords fun descending _ => (respelled hplain).sameIsWord _
  rw [Typed.expression_eq hplain hkey]
  apply hdirection.bind_eq
  intro _
  exact .pure rfl

theorem tracks_parseOrderBy (owner : StructuredType) :
    C.Tracks Eq (OrderBy.parse C.scope owner) (OrderBy.parse C.scope' owner) :=
  .separated_eq (tracks_parseOrderByItem hplain owner) ((respelled hplain).sameIsA .comma)

end Plain

end ScopedComparison

end ODataOptions
