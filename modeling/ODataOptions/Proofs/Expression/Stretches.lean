import ODataOptions.Proofs.Expression.Operands

/-!
# Where expressions stand among the tokens

An expression stands where its tokens stand, from the first one that its parser consumes to the last one,
and its parentheses belong to it.  So an operand that is reported is reported with all of its tokens.
-/

namespace ODataOptions

open ODataOptions.Parser

/-- From the cursor, the parser yields what stands where its tokens stand, and its faults report whole
operands. -/
def Parser.StretchesFrom (scope : Scope) (owner : StructuredType) (start cursor : Cursor)
    (parser : Parser TypedExpression) : Prop :=
  Leads cursor parser (fun typed rest => cursor.Stretch rest typed.span)
    (Fault.ReportsOperands scope owner start start.StretchOf)

/-- The parser does so from wherever an operand of the precedence begins. -/
def Parser.Stretches (scope : Scope) (owner : StructuredType) (start : Cursor) (precedence : Precedence)
    (parser : Parser TypedExpression) : Prop :=
  ∀ cursor, Expression.Begins start precedence cursor → StretchesFrom scope owner start cursor parser

theorem Parser.StretchesFrom.nested {scope : Scope} {owner : StructuredType} {start cursor : Cursor}
    {parser : Parser TypedExpression} {limit : Nat}
    (hparser : ∀ depth, StretchesFrom scope owner start { cursor with depth } parser) :
    StretchesFrom scope owner start cursor (nested limit parser) :=
  Leads.nested trivial fun _ => (hparser _).mono fun _ _ hstretch => hstretch.withDepth _

namespace Expression.Grammar

/-- The parts that the grammar refers back to yield expressions that stand where their tokens stand. -/
structure Stretched (scope : Scope) (owner : StructuredType) (start : Cursor) (grammar : Grammar) :
    Prop where
  whole : Parser.Stretches scope owner start .disjunction grammar.whole
  operand : Parser.Stretches scope owner start .negation grammar.operand

variable {scope : Scope} {owner : StructuredType} {start cursor : Cursor} {levels : Nat}

/-! ## Operands by themselves -/

theorem leads_memberSegment (cursor : Cursor) (owner' : StructuredType) :
    Leads cursor (memberSegment scope owner') (fun _ _ => True)
      (Fault.ReportsOperands scope owner start start.StretchOf) := by
  have hcontinued (cursor : Cursor) (member : Member) :
      Leads cursor (memberSegment.continued member) (fun _ _ => True)
        (Fault.ReportsOperands scope owner start start.StretchOf) := by
    rw [memberSegment.continued]
    split
    · exact .accept_bind (fun _ => .pure trivial) (.pure trivial)
    · exact .pure trivial
  apply Leads.expect_bind _ trivial
  intro _
  split
  · exact hcontinued _ _
  · split
    · split
      · exact leads_throw trivial
      · exact hcontinued _ _
    · exact leads_throw trivial

/-- A path stands from its first segment to its last one. -/
theorem stretches_memberPath : StretchesFrom scope owner start cursor (memberPath scope owner) := by
  have hmoves : Moves (unfold (memberSegment scope) owner) :=
    moves_unfold (fun owner => (mirrors_memberSegment owner).moves) owner
  have hconsumes : Consumes (unfold (memberSegment scope) owner) :=
    .unfold consumes_memberSegment (fun owner => (mirrors_memberSegment owner).moves) owner
  have hsegments : Leads cursor (unfold (memberSegment scope) owner) (fun _ _ => True)
      (Fault.ReportsOperands scope owner start start.StretchOf) := by
    refine Leads.unfold (I := fun _ _ => True) ?_ (fun _ _ _ => trivial) trivial
    intro cursor owner' _
    apply (leads_memberSegment cursor owner').mono
    simp
  apply Leads.current_bind
  apply hsegments.bind
  intro path rest hpath _
  apply Leads.get_bind
  exact .pure (hmoves.stretch hconsumes hpath)

theorem stretches_literal (hkind : cursor.current.kind ≠ .endOfInput) :
    StretchesFrom scope owner start cursor literal := by
  apply Leads.next_bind
  have hliteral : Leads cursor.advance (ofExcept (Literal.ofToken cursor.current))
      (fun _ rest => rest = cursor.advance)
      (Fault.ReportsOperands scope owner start start.StretchOf) := by
    apply leads_ofExcept
    · intro _ _
      rfl
    · intro fault hfault
      rw [Literal.ofToken] at hfault
      split at hfault
      · split at hfault <;> cases hfault
        trivial
      all_goals cases hfault
  apply hliteral.bind
  rintro _ _ _ rfl
  exact .pure (Cursor.stretch_current hkind)

theorem stretches_parameter (hkind : cursor.current.kind ≠ .endOfInput) :
    StretchesFrom scope owner start cursor (parameter scope) :=
  .next_bind (.pure (Cursor.stretch_current hkind))

section

variable (hinner : (ofLevels scope owner levels).Stretched scope owner start)

include hinner

/-- A group stands from its opening parenthesis to its closing one. -/
theorem stretches_group (htokens : cursor.tokens = start.tokens) :
    StretchesFrom scope owner start cursor (group (ofLevels scope owner levels)) := by
  apply Leads.expect_bind _ trivial
  intro hopening
  have hbegins : Begins start .disjunction cursor.advance := begins_advance htokens (.openParen hopening)
  apply (hinner.whole _ hbegins).bind
  intro content rest _ hcontent
  apply Leads.expect_bind _ trivial
  intro hclosing
  have hfirst := Cursor.stretch_of_isA (by decide) hopening
  have hlast := Cursor.stretch_of_isA (by decide) hclosing
  exact .pure (hfirst.cover hcontent.reaches hlast)

/-- The arguments follow one another, each of them up to a comma or up to the end. -/
theorem leads_arguments {method : Method} (hbegins : Begins start .disjunction cursor)
    (hargument : BeginsArgument (ofLevels scope owner levels).whole method cursor) :
    Leads cursor (arguments (ofLevels scope owner levels)) (fun arguments rest =>
      ∀ argument ∈ arguments, ∃ before behind,
        (Begins start .disjunction before ∧
          BeginsArgument (ofLevels scope owner levels).whole method before) ∧
        (ofLevels scope owner levels).whole before = .ok argument behind ∧
        (behind.current.isA .comma = true ∨ behind = rest))
      (Fault.ReportsOperands scope owner start start.StretchOf) := by
  apply Leads.current_bind
  split
  · exact .pure fun _ hmem => nomatch hmem
  · apply Leads.separated (P := fun _ _ => True) _ _ ⟨hbegins, hargument⟩
    · intro before hbefore
      exact (hinner.whole before hbefore.1).mono fun _ _ _ => trivial
    · rintro before value behind ⟨hbefore, hargument⟩ hrun hcomma
      have htokens := ((hinner.whole before hbefore).of_ok hrun).tokens_eq.trans hbefore.1
      exact ⟨begins_advance htokens (.comma hcomma), .next hargument hrun hcomma⟩

/-- A call stands from the name of the method to the closing parenthesis. -/
theorem stretches_methodCall (htokens : cursor.tokens = start.tokens) :
    StretchesFrom scope owner start cursor (methodCall (ofLevels scope owner levels)) := by
  have hmoves : Moves (arguments (ofLevels scope owner levels)) :=
    (Mirrored.ofLevels scope owner levels).arguments.moves
  apply Leads.current_bind
  cases hmethod : Method.ofName? cursor.current.text with
  | none => exact leads_throw trivial
  | some method =>
    apply Leads.expect_bind _ trivial
    intro hname
    apply Leads.expect_bind _ trivial
    intro hopening
    have hword : cursor.current.isWord method.name = true := by
      have htext : method.name = cursor.current.text := by
        simpa using List.find?_some (show Method.all.find? _ = some method from hmethod)
      simp [Token.isWord, (Token.isA_iff_kind_eq rfl).mp hname, htext]
    have hbegins : Begins start .disjunction cursor.advance.advance :=
      begins_advance ((Cursor.tokens_advance cursor).trans htokens) (.openParen hopening)
    apply (leads_arguments hinner hbegins (.first hword hopening)).bind
    intro arguments rest hrun hall
    apply Leads.expect_bind _ trivial
    intro hclosing
    apply leads_ofExcept
    · intro value hcall
      have hreaches := (Cursor.reaches_advance _).trans (hmoves.reaches hrun)
      have hfirst := Cursor.stretch_of_isA (by decide) hname
      have hlast := Cursor.stretch_of_isA (by decide) hclosing
      rw [TypedExpression.span_of_call hcall]
      exact hfirst.cover hreaches hlast
    · intro fault herror
      rcases TypedExpression.call_eq_error herror with rfl | ⟨argument, hmem, hmismatched⟩
      · trivial
      · obtain ⟨before, behind, ⟨hbefore, hargument⟩, hwhole, hends⟩ := hall argument hmem
        have hbehind : behind.current.isA .comma = true ∨ behind.current.isA .closeParen = true :=
          hends.imp_right fun hrest => by rwa [hrest]
        exact hmismatched.reportsOperands (.argument hargument hwhole hbehind)
          ⟨hbefore.1, (hinner.whole before hbefore).of_ok hwhole⟩

theorem stretches_named (htokens : cursor.tokens = start.tokens) :
    StretchesFrom scope owner start cursor (named scope owner (ofLevels scope owner levels)) := by
  apply Leads.current_bind
  apply Leads.accept_bind
  · intro hnull
    exact .pure (Cursor.stretch_of_isA (by decide) hnull)
  apply Leads.accept_bind
  · intro hboolean
    exact .pure (Cursor.stretch_of_isA (by decide) hboolean)
  apply Leads.get_bind
  split
  · exact StretchesFrom.nested fun depth => stretches_methodCall hinner htokens
  · exact stretches_memberPath

theorem stretches_primary :
    Stretches scope owner start .primary (primary scope owner (ofLevels scope owner levels)) := by
  intro cursor ⟨htokens, _⟩
  apply Leads.current_bind
  cases hkind : cursor.current.kind with
  | openParen => exact StretchesFrom.nested fun depth => stretches_group hinner htokens
  | integer | decimal | string | date | dateTimeOffset | guid =>
    exact stretches_literal (by simp [hkind])
  | parameterAlias => exact stretches_parameter (by simp [hkind])
  | identifier => exact stretches_named hinner htokens
  | _ => exact leads_unexpected trivial

/-! ## Operations -/

omit hinner in
/-- A chain of operations stands from its first operand to its last one.  What has been combined is of the
class that the operators ask for, so it is only the first operand that does not fit on the left. -/
theorem stretches_operations {operators : List BinaryOperator} (precedence : Precedence)
    (type : ExpressionType) (hoperators : ∀ operator ∈ operators,
      operator.precedence = precedence ∧ operator.operandType? = some type)
    (hoperand : Stretches scope owner start precedence.tighter
      (parser scope owner (ofLevels scope owner levels) precedence.tighter)) :
    Stretches scope owner start precedence
      (operations operators (parser scope owner (ofLevels scope owner levels) precedence.tighter)) := by
  intro cursor hbegins
  apply (hoperand cursor (hbegins.tighten precedence.le_tighter)).bind
  intro first rest hfirst hstretch
  apply Leads.mono (P := fun left word => cursor.Stretch word left.span ∧
    (parser scope owner (ofLevels scope owner levels) precedence.tighter cursor = .ok left word ∨
      left.type = type)) _ fun _ _ hstretches => hstretches.1
  apply Leads.iterate _ ⟨hstretch, .inl hfirst⟩
  rintro word left ⟨hleft, hwhole⟩
  apply (leads_oneOfWords _ operators).bind
  intro operator? next _ hfound
  cases operator? with
  | none =>
    obtain rfl := hfound
    exact .pure ⟨hleft, hwhole⟩
  | some operator =>
    obtain ⟨hmem, hword, rfl⟩ := hfound
    obtain ⟨rfl, htype⟩ := hoperators operator hmem
    have hnext : Begins start operator.precedence.tighter word.advance :=
      begins_advance (hleft.tokens_eq.trans hbegins.1) (.binary hword (Nat.le_refl _))
    apply (hoperand _ hnext).bind
    intro right behind hrightRun hright
    have hleftRun := hwhole.imp_right fun hsame =>
      (⟨type, htype, hsame⟩ : ∃ type ∈ operator.operandType?, left.type = type)
    apply (TypedExpression.leads_binary hbegins hleft hword hright hleftRun hrightRun).map
    intro value rest hvalue
    exact ⟨hvalue.1, .inr (hvalue.2 type htype)⟩

theorem stretches_additive :
    Stretches scope owner start .additive (additive scope owner (ofLevels scope owner levels)) :=
  stretches_operations .additive .numeric (by decide)
    (stretches_operations .multiplicative .numeric (by decide) (stretches_primary hinner))

theorem stretches_comparison :
    Stretches scope owner start .comparison (comparison scope owner (ofLevels scope owner levels)) := by
  intro cursor hbegins
  apply (stretches_additive hinner cursor (hbegins.tighten (by decide))).bind
  intro left word hleftRun hleft
  apply (leads_oneOfWords _ _).bind
  intro operator? next _ hfound
  cases operator? with
  | none =>
    obtain rfl := hfound
    exact .pure hleft
  | some operator =>
    obtain ⟨hmem, hword, rfl⟩ := hfound
    have hcomparison : ∀ operator ∈ [BinaryOperator.eq, .ne, .gt, .ge, .lt, .le],
        operator.precedence = .comparison := by decide
    have hprecedence := hcomparison operator hmem
    have hoperand : parser scope owner (ofLevels scope owner levels) operator.precedence.tighter =
        additive scope owner (ofLevels scope owner levels) := by
      rw [hprecedence]
      rfl
    have hnext : Begins start .additive word.advance :=
      begins_advance (hleft.tokens_eq.trans hbegins.1) (.binary hword (by rw [hprecedence]; decide))
    apply (stretches_additive hinner _ hnext).bind
    intro right behind hrightRun hright
    rw [← hprecedence] at hbegins
    rw [← hoperand] at hleftRun hrightRun
    exact (TypedExpression.leads_binary hbegins hleft hword hright (.inl hleftRun) hrightRun).mono
      fun _ _ hvalue => hvalue.1

/-- A negation stands from the word `not` to the end of its operand. -/
theorem stretches_negated (htokens : cursor.tokens = start.tokens)
    (hword : cursor.current.isWord "not" = true) :
    StretchesFrom scope owner start cursor (negated (ofLevels scope owner levels)) := by
  apply Leads.expect_bind _ trivial
  intro hname
  have hbegins : Begins start .negation cursor.advance :=
    begins_advance htokens (.not hword (Nat.le_refl _))
  apply (hinner.operand _ hbegins).bind
  intro operand rest hrun hoperand
  have hfirst := Cursor.stretch_of_isA (by decide) hname
  have hrequired : Leads rest (ofExcept (operand.require "not" .boolean)) (fun _ behind => behind = rest)
      (Fault.ReportsOperands scope owner start start.StretchOf) := by
    apply leads_ofExcept
    · intro _ _
      rfl
    · intro fault herror
      have hmismatched := (TypedExpression.require_eq_error herror).1
      exact hmismatched.reportsOperands (.negated hword hrun) ⟨hbegins.1, hoperand⟩
  apply hrequired.bind
  rintro _ _ _ rfl
  exact .pure (hfirst.cover (.refl _) hoperand)

theorem stretches_negation :
    Stretches scope owner start .negation (negation scope owner (ofLevels scope owner levels)) := by
  intro cursor hbegins
  apply Leads.current_bind
  split
  · next hword => exact StretchesFrom.nested fun depth => stretches_negated hinner hbegins.1 hword
  · exact stretches_comparison hinner cursor (hbegins.tighten (by decide))

theorem stretches_disjunction :
    Stretches scope owner start .disjunction (disjunction scope owner (ofLevels scope owner levels)) :=
  stretches_operations .disjunction .boolean (by decide)
    (stretches_operations .conjunction .boolean (by decide) (stretches_negation hinner))

end

/-- By induction on the levels, since each of them refers to the one below. -/
theorem stretches_ofLevels (levels : Nat) : (ofLevels scope owner levels).Stretched scope owner start := by
  induction levels with
  | zero => exact ⟨fun _ _ => leads_failHere trivial, fun _ _ => leads_failHere trivial⟩
  | succ levels ih => exact ⟨stretches_disjunction ih, stretches_negation ih⟩

end Expression.Grammar

/-- An expression that is parsed stands where the tokens stand that have been consumed for it.  If the
tokens are those of a text, each fault that reports operands shows the text of whole ones. -/
theorem Expression.stretch_of_parse (scope : Scope) (owner : StructuredType) (cursor : Cursor) :
    (∀ typed rest, Expression.parse scope owner cursor = .ok typed rest →
      cursor.Stretch rest typed.span) ∧
    ∀ source fault rest, cursor.tokens = tokens source →
      Expression.parse scope owner cursor = .error fault rest →
        fault.ReportsOperands scope owner cursor (Cursor.Excerpt source) := by
  have hparse : StretchesFrom scope owner cursor cursor (Expression.parse scope owner) :=
    (Grammar.stretches_ofLevels _).whole cursor ⟨rfl, .inl rfl⟩
  refine ⟨fun typed rest hrun => hparse.of_ok hrun, fun source fault rest htokens hrun => ?_⟩
  exact (hparse.of_error hrun).mono fun _ _ _ hstretch => hstretch.2.excerpt (hstretch.1.trans htokens)

/-- The left operand of a product, which is itself the right operand of a sum, is shown with its
parentheses. -/
theorem Expression.stretch_of_parse_shop :
    (∃ typed rest, Expression.parse { schema := .shop } .shopCustomer
        (.ofTokens (tokens "not ((Age) lt 2) )")) = .ok typed rest ∧
      typed.span = ⟨0, 16⟩ ∧ (Cursor.ofTokens (tokens "not ((Age) lt 2) )")).Stretch rest typed.span) ∧
    ∃ fault rest, Expression.parse { schema := .shop } .shopCustomer
        (.ofTokens (tokens "2 add ('é' ) mul 3")) = .error fault rest ∧
      fault.span = ⟨6, 13⟩ ∧ fault.ReportsOperands { schema := .shop } .shopCustomer
        (.ofTokens (tokens "2 add ('é' ) mul 3")) (Cursor.Excerpt "2 add ('é' ) mul 3") := by
  obtain ⟨hstretch, -⟩ := Expression.stretch_of_parse { schema := .shop } .shopCustomer
    (.ofTokens (tokens "not ((Age) lt 2) )"))
  obtain ⟨-, hreports⟩ := Expression.stretch_of_parse { schema := .shop } .shopCustomer
    (.ofTokens (tokens "2 add ('é' ) mul 3"))
  exact ⟨⟨_, _, rfl, by decide +kernel, hstretch _ _ rfl⟩, _, _, rfl, by decide +kernel,
    hreports _ _ _ rfl rfl⟩

end ODataOptions
