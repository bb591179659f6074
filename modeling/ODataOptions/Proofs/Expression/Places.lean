import ODataOptions.OrderBy.Parser
import ODataOptions.Expression.Filter
import ODataOptions.Proofs.Expression.Mirrors
import ODataOptions.Proofs.Parser.Places

/-!
# Where expressions stand

Every expression stands in the text between the tokens where its parser began and where it stopped, so a
fault of an operand or of an operator points into the text too.
-/

namespace ODataOptions

open ODataOptions.Parser

/-- The expressions of the parser stand where the parser has come by. -/
def Parser.Spans (source : String) (parser : Parser TypedExpression) : Prop :=
  ∀ cursor, Locates source cursor parser fun typed stop =>
    typed.span.Between source cursor.offset stop

variable {source : String}

theorem Parser.Spans.nested {parser : Parser TypedExpression} (hparser : Spans source parser)
    (limit : Nat) : Spans source (nested limit parser) :=
  fun cursor => .nested fun depth => hparser { cursor with depth }

/-! ## Checking of operands -/

namespace TypedExpression

variable {operand left right : TypedExpression}

theorem checked_require (hspan : operand.span.LiesIn source) (operator : String)
    (expected : ExpressionType) : Fault.Checked source (operand.require operator expected) :=
  .ite (Fault.checked_ok _) (Fault.checked_error (Fault.placedIn_of_span hspan rfl))

theorem checked_requirePrimitive (hspan : operand.span.LiesIn source) (operator : String) :
    Fault.Checked source (operand.requirePrimitive operator) :=
  .ite (Fault.checked_error (Fault.placedIn_of_span hspan rfl)) (Fault.checked_ok _)

theorem checked_requireComparable (hspan : (Span.cover left.span right.span).LiesIn source)
    (operator : BinaryOperator) : Fault.Checked source (requireComparable operator left right) :=
  .ite (Fault.checked_ok _) (Fault.checked_error (Fault.placedIn_of_span hspan rfl))

section Operation

variable {first middle last : Nat} (hleft : left.span.Between source first middle)
  (hright : right.span.Between source middle last) (operator : BinaryOperator)

include hleft hright

theorem checked_operationType : Fault.Checked source (operationType operator left right) := by
  have hboth := (hleft.cover hright).liesIn
  cases operator with
  | or | and | add | sub | mul | div | mod =>
    apply (checked_require hleft.liesIn _ _).bind
    intro _ _
    apply (checked_require hright.liesIn _ _).bind
    intro _ _
    exact Fault.checked_ok _
  | eq | ne =>
    apply (checked_requireComparable hboth _).bind
    intro _ _
    exact Fault.checked_ok _
  | gt | ge | lt | le =>
    apply (checked_requireComparable hboth _).bind
    intro _ _
    apply (checked_requirePrimitive hleft.liesIn _).bind
    intro _ _
    apply (checked_requirePrimitive hright.liesIn _).bind
    intro _ _
    exact Fault.checked_ok _

/-- An operation stands from its left operand to its right one. -/
theorem locates_binary {cursor : Cursor} (hlast : last ≤ cursor.offset) :
    Locates source cursor (ofExcept (binary operator left right)) fun typed stop =>
      typed.span.Between source first stop := by
  apply locates_ofExcept
  · apply (checked_operationType hleft hright operator).bind
    intro _ _
    exact Fault.checked_ok _
  · intro typed htyped
    obtain ⟨type, -, hspan⟩ := Fault.bind_eq_ok_iff.mp htyped
    cases hspan
    exact (hleft.cover hright).mono (Nat.le_refl _) hlast

end Operation

theorem checked_requireArguments (method : Method) {arguments : List TypedExpression}
    (harguments : ∀ argument ∈ arguments, argument.span.LiesIn source)
    (parameters : List ExpressionType) :
    Fault.Checked source (requireArguments method arguments parameters) := by
  induction arguments generalizing parameters with
  | nil => exact Fault.checked_ok _
  | cons argument arguments ih =>
    obtain ⟨hargument, hrest⟩ := List.forall_mem_cons.mp harguments
    cases parameters with
    | nil => exact Fault.checked_ok _
    | cons expected parameters =>
      apply (checked_require hargument _ _).bind
      intro _ _
      exact ih hrest parameters

/-- A call stands at the place that it is given. -/
theorem locates_call {cursor : Cursor} {method : Method} {arguments : List TypedExpression}
    {span : Span} {first : Nat} (harguments : ∀ argument ∈ arguments, argument.span.LiesIn source)
    (hspan : span.Between source first cursor.offset) :
    Locates source cursor (ofExcept (call method arguments span)) fun typed stop =>
      typed.span.Between source first stop := by
  rw [call]
  split
  · apply locates_ofExcept
    · apply (checked_requireArguments method harguments _).bind
      intro _ _
      exact Fault.checked_ok _
    · intro typed htyped
      obtain ⟨_, -, hcall⟩ := Fault.bind_eq_ok_iff.mp htyped
      cases hcall
      exact hspan
  · exact locates_throw fun _ => Fault.placedIn_of_span hspan.liesIn rfl

end TypedExpression

theorem Literal.checked_ofToken {token : Token} (hspan : token.span.LiesIn source) :
    Fault.Checked source (Literal.ofToken token) := by
  rw [Literal.ofToken]
  split
  · split
    · exact Fault.checked_ok _
    · exact Fault.checked_error (Fault.placedIn_of_span hspan rfl)
  all_goals exact Fault.checked_ok _

/-! ## The grammar -/

namespace Expression.Grammar

/-- The parts that the grammar refers back to yield expressions that stand where they were parsed. -/
structure Spans (source : String) (grammar : Grammar) : Prop where
  whole : Parser.Spans source grammar.whole
  operand : Parser.Spans source grammar.operand

variable {scope : Scope} {owner : StructuredType} {inner : Grammar}

theorem located_continued (member : Member) :
    Located source (memberSegment.continued member) := by
  rw [memberSegment.continued]
  split
  · exact (located_accept _).map _
  · exact located_pure _

/-- An unknown member is reported at its name. -/
theorem located_memberSegment (owner : StructuredType) :
    Located source (memberSegment scope owner) := by
  intro cursor
  apply (locates_expect _).bind
  rintro token rest _ _ ⟨_, hmem, _⟩
  have hspan := (marks_of_mem_tokens hmem).liesIn
  cases scope.schema.property? owner token.text with
  | some property => exact located_continued _ rest
  | none =>
    cases scope.schema.navigation? owner token.text with
    | none => exact locates_throw fun _ => Fault.placedIn_of_span hspan rfl
    | some navigation =>
      dsimp only
      split
      · exact locates_throw fun _ => Fault.placedIn_of_span hspan rfl
      · exact located_continued _ rest

/-- A path stands from its first token to the one that was consumed last. -/
theorem spans_memberPath : Parser.Spans source (memberPath scope owner) := by
  have hpath : Consumes (unfold (memberSegment scope) owner) :=
    .unfold consumes_memberSegment (fun owner => (mirrors_memberSegment owner).moves) owner
  intro cursor hcursor
  refine Locates.current_bind (fun _ => ?_) hcursor
  apply (Located.unfold located_memberSegment owner cursor).bind
  intro path rest hrun _ _ hrest
  have hlast := hcursor.previousSpan_between hrest (hpath hrun)
  refine ⟨hrest, Nat.le_refl _, hcursor.current_liesIn.cover hlast.liesIn ?_, Nat.le_refl _,
    hlast.le_last⟩
  exact Nat.le_trans hlast.first_le hlast.liesIn.ordered

theorem spans_literal : Parser.Spans source literal := by
  intro cursor
  apply locates_next.bind
  rintro token rest _ _ ⟨_, _, hspan⟩
  apply (locates_ofExcept (P := fun _ stop => stop = rest.offset)
    (Literal.checked_ofToken hspan.liesIn) fun _ _ => rfl).bind
  intro value last _ _ hlast
  apply Locates.pure
  rw [hlast]
  exact hspan

theorem spans_parameter : Parser.Spans source (parameter scope) := by
  intro _
  apply locates_next.bind
  intro _ _ _ _ htoken
  exact .pure htoken.2.2

section

variable (hinner : inner.Spans source)

include hinner

theorem spans_group : Parser.Spans source (group inner) := by
  intro cursor
  apply (locates_expect _).bind
  rintro opening first _ _ ⟨_, _, hopening⟩
  apply (hinner.whole first).bind
  intro content middle _ hmiddle _
  apply (locates_expect _).bind
  rintro closing last _ _ ⟨_, _, hclosing⟩
  exact .pure ((hopening.mono (Nat.le_refl _) hmiddle).cover hclosing)

theorem locates_arguments (cursor : Cursor) :
    Locates source cursor (arguments inner) fun arguments _ =>
      ∀ argument ∈ arguments, argument.span.LiesIn source := by
  apply Locates.current_bind
  intro _
  split
  · exact .pure fun _ hmem => nomatch hmem
  · apply Locates.unfold (I := fun _ _ => True) _ trivial
    intro rest _ _ _
    apply (hinner.whole rest).bind
    intro argument middle _ _ hargument
    apply (located_accept _ middle).bind
    intro _ _ _ _ _
    exact .pure ⟨hargument.liesIn, fun _ _ => trivial⟩

/-- A call stands from its name to its closing parenthesis, wherever its arguments end. -/
theorem spans_methodCall : Parser.Spans source (methodCall inner) := by
  intro cursor
  apply Locates.current_bind
  intro hmem
  cases Method.ofName? cursor.current.text with
  | none =>
    exact locates_throw fun _ => Fault.placedIn_of_span (marks_of_mem_tokens hmem).liesIn rfl
  | some method =>
    apply (locates_expect _).bind
    rintro name first _ _ ⟨hname, _, hspan⟩
    rw [hname] at hspan
    apply (located_expect _ first).bind
    intro _ second _ hsecond _
    apply (locates_arguments hinner second).bind
    intro arguments third _ hthird harguments
    apply (locates_expect _).bind
    rintro last rest _ _ ⟨_, _, hlast⟩
    have hfirst := hspan.mono (Nat.le_refl _) (Nat.le_trans hsecond hthird)
    exact TypedExpression.locates_call harguments (hfirst.cover hlast)

theorem spans_named : Parser.Spans source (named scope owner inner) := by
  intro cursor
  apply Locates.current_bind
  intro _
  apply Locates.accept_bind
  · intro hnull
    exact .pure hnull
  apply Locates.accept_bind
  · intro hboolean
    exact .pure hboolean
  apply Locates.get_bind
  split
  · exact (spans_methodCall hinner).nested _ cursor
  · exact spans_memberPath cursor

theorem spans_primary : Parser.Spans source (primary scope owner inner) := by
  intro cursor
  apply Locates.current_bind
  intro _
  cases cursor.current.kind with
  | openParen => exact (spans_group hinner).nested _ cursor
  | integer | decimal | string | date | dateTimeOffset | guid => exact spans_literal cursor
  | parameterAlias => exact spans_parameter cursor
  | identifier => exact spans_named hinner cursor
  | _ => exact locates_unexpected _

omit hinner in
/-- Operations stand from their first operand to their last one. -/
theorem spans_operations {operators : List BinaryOperator} {operand : Parser TypedExpression}
    (hoperand : Parser.Spans source operand) :
    Parser.Spans source (operations operators operand) := by
  intro cursor
  apply (hoperand cursor).bind
  intro first rest _ _ hfirst
  let ranges (typed : TypedExpression) (stop : Nat) := typed.span.Between source cursor.offset stop
  refine Locates.iterate (I := ranges) (fun middle left _ hleft => ?_) hfirst
  apply (located_oneOfWords _ operators middle).bind
  intro operator? next _ hnext _
  cases operator? with
  | none => exact .pure (hleft.mono (Nat.le_refl _) hnext)
  | some operator =>
    apply (hoperand next).bind
    intro right last _ _ hright
    apply (TypedExpression.locates_binary (hleft.mono (Nat.le_refl _) hnext) hright operator
      (Nat.le_refl _)).bind
    intro typed stop _ _ htyped
    exact .pure htyped

theorem spans_additive : Parser.Spans source (additive scope owner inner) :=
  spans_operations (spans_operations (spans_primary hinner))

theorem spans_comparison : Parser.Spans source (comparison scope owner inner) := by
  intro cursor
  apply (spans_additive hinner cursor).bind
  intro left rest _ _ hleft
  apply (located_oneOfWords _ _ rest).bind
  intro operator? next _ hnext _
  have hbefore := hleft.mono (Nat.le_refl _) hnext
  cases operator? with
  | none => exact .pure hbefore
  | some operator =>
    apply (spans_additive hinner next).bind
    intro right last _ _ hright
    exact TypedExpression.locates_binary hbefore hright operator (Nat.le_refl _)

theorem spans_negated : Parser.Spans source (negated inner) := by
  intro cursor
  apply (locates_expect _).bind
  rintro word first _ _ ⟨_, _, hword⟩
  apply (hinner.operand first).bind
  intro operand last _ _ hoperand
  refine (locates_ofExcept (P := fun _ stop => stop = last.offset)
    (TypedExpression.checked_require hoperand.liesIn _ _) fun _ _ => rfl).bind ?_
  intro _ stop _ _ hstop
  apply Locates.pure
  rw [hstop]
  exact hword.cover hoperand

theorem spans_negation : Parser.Spans source (negation scope owner inner) := by
  intro cursor
  apply Locates.current_bind
  intro _
  split
  · exact (spans_negated hinner).nested _ cursor
  · exact spans_comparison hinner cursor

theorem spans_disjunction : Parser.Spans source (disjunction scope owner inner) :=
  spans_operations (spans_operations (spans_negation hinner))

end

theorem spans_ofLevels (levels : Nat) : (ofLevels scope owner levels).Spans source := by
  induction levels with
  | zero =>
    have htooDeep : Parser.Spans source
        (failHere (.expressionTooDeep scope.limits.expressionDepth)) :=
      fun _ => locates_failHere fun hkey => nomatch hkey
    exact ⟨htooDeep, htooDeep⟩
  | succ levels ih => exact ⟨spans_disjunction ih, spans_negation ih⟩

end Expression.Grammar

/-! ## Filters and sort keys -/

variable {scope : Scope} {owner : StructuredType}

theorem Expression.spans_parse : Spans source (Expression.parse scope owner) :=
  (Grammar.spans_ofLevels _).whole

theorem Expression.located_parseFilter : Located source (Expression.parseFilter scope owner) := by
  intro cursor
  apply (Expression.spans_parse cursor).bind
  intro filter rest _ _ hfilter
  split
  · exact .pure trivial
  · exact locates_throw fun _ => Fault.placedIn_of_span hfilter.liesIn rfl

theorem OrderByItem.located_parse : Located source (OrderByItem.parse scope owner) := by
  intro cursor
  apply (Expression.spans_parse cursor).bind
  intro key rest _ _ hkey
  dsimp only
  split
  · exact locates_throw fun _ => Fault.placedIn_of_span hkey.liesIn rfl
  · exact (located_oneOfWords _ _).map _ rest

theorem OrderBy.located_parse : Located source (OrderBy.parse scope owner) :=
  OrderByItem.located_parse.separated .comma

end ODataOptions
