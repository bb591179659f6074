import ODataOptions.Proofs.Expression.Soundness
import ODataOptions.Proofs.Expression.Words
import ODataOptions.Proofs.Parser.Reads

/-!
# Reading of operands and operations

What each rule of the grammar makes of the words of an expression, up to the rules that refer back to
the grammar.  An operand ends before a word that is neither a slash nor a parenthesis that opens, and
operations of one precedence end before a word that is not one of their operators.
-/

namespace ODataOptions

open ODataOptions.Parser

/-- What was parsed is the expression, with the class that the judgement gives it. -/
def TypedExpression.Of (scope : Scope) (owner : StructuredType) (expression : Expression)
    (typed : TypedExpression) : Prop :=
  typed.expression = expression ∧ Expression.HasType scope owner expression typed.type

namespace Expression.Grammar

variable {scope : Scope} {owner : StructuredType} {depth : Nat} {follow : Word → Prop}

/-! ## Literals and parameters -/

theorem ofToken_of_word {words : Vocabulary} {value : Literal} {token : Token}
    (hspelled : value.Spelled words) (hkind : value.kind ∈ literalKinds)
    (hword : token.word = value.word) :
    Literal.ofToken token = .ok value ∧ ExpressionType.ofToken token = value.type := by
  obtain ⟨kind, text, span⟩ := token
  obtain ⟨rfl, rfl⟩ := Word.mk.inj hword
  cases value with
  | null => exact absurd hkind (by decide)
  | boolean => exact absurd hkind (by simp [Literal.kind, literalKinds])
  | integer number =>
    have hrange : Literal.inRange number = true := hspelled
    have hread : (Text.integer? (toString number)).filter Literal.inRange = some number := by
      rw [Text.integer?_toString, Option.filter, if_pos hrange]
    refine ⟨?_, rfl⟩
    simp only [Literal.ofToken, Literal.kind, Literal.print, hread]
  | string text =>
    have htext : (Literal.string text).print.toList =
        '\'' :: (Text.Doubled.encode '\'' text.toList ++ ['\'']) := toList_quoted '\'' _
    refine ⟨?_, rfl⟩
    simp only [Literal.ofToken, Literal.kind, htext, Text.unquoted_quoted,
      Text.Doubled.decode_encode, String.ofList_toList]
  | decimal | date | dateTimeOffset | guid => exact ⟨rfl, rfl⟩

theorem reads_literal {words : Vocabulary} {value : Literal} (hspelled : value.Spelled words)
    (hkind : value.kind ∈ literalKinds) :
    Reads literal depth [value.word] follow True (TypedExpression.Of scope owner (.literal value)) := by
  apply reads_next
  intro token hword
  obtain ⟨hvalue, htype⟩ := ofToken_of_word hspelled hkind hword
  apply (reads_ofExcept trivial ⟨value, hvalue, rfl⟩).map
  rintro _ rfl
  refine ⟨rfl, ?_⟩
  rw [htype]
  exact .literal value

theorem reads_parameter {name : String} (hspelled : (Expression.parameter name).Spelled Word.IsToken) :
    Reads (Grammar.parameter scope) depth (Expression.parameter name).words follow True
      (TypedExpression.Of scope owner (.parameter name)) := by
  obtain ⟨text, htoken, rfl⟩ := hspelled
  have htext := htoken.parameterAlias_eq
  apply reads_next
  intro token hword
  refine reads_pure trivial ?_
  have hname : parameterName token.text = parameterName text := by
    have := congrArg Word.text hword
    rw [Token.word_text, ← htext] at this
    rw [this]
  change TypedExpression.Of scope owner _ ⟨.parameter (parameterName token.text),
    scope.parameterType (parameterName token.text), _⟩
  rw [hname]
  exact ⟨rfl, .parameter _⟩

/-! ## Member paths -/

theorem reads_continued_last {member : Member}
    (hfollow : ∀ word, follow word → word.kind ≠ .slash) :
    Reads (memberSegment.continued member) depth [] follow True (· = (member, none)) := by
  rw [memberSegment.continued]
  cases next? member with
  | none => exact reads_pure trivial rfl
  | some type =>
    refine declines_accept (fun word hword => ?_) (reads_pure trivial rfl)
    exact Word.isA_eq_false rfl (hfollow word hword)

theorem reads_continued_slash {member : Member} {type : StructuredType}
    (hsingle : member.collection = false) (htype : member.type? = some type) :
    Reads (memberSegment.continued member) depth [.slash] follow True
      (· = (member, some type)) := by
  have hnext : next? member = some type := by simp [next?, hsingle, htype]
  rw [memberSegment.continued]
  rw [hnext]
  exact reads_accept rfl (reads_pure trivial rfl)

theorem reads_memberSegment {member : Member} {words : List Word}
    {P : Member × Option StructuredType → Prop} (hmember : member.Resolves scope.schema owner)
    (hcontinued : Reads (memberSegment.continued member) depth words follow True P) :
    Reads (memberSegment scope owner) depth (.identifier member.name :: words) follow True P := by
  apply reads_expect rfl
  intro token hword
  have htext : token.text = member.name := congrArg Word.text hword
  rw [htext]
  cases hmember with
  | @property property hfound =>
    have hproperty : scope.schema.property? owner (Member.property property).name = some property :=
      hfound
    simp only [hproperty]
    exact hcontinued
  | @navigation navigation hfree hfound hsingle =>
    have hproperty : scope.schema.property? owner (Member.navigation navigation).name = none :=
      hfree
    have hnavigation : scope.schema.navigation? owner (Member.navigation navigation).name =
        some navigation := hfound
    simp only [hproperty, hnavigation, hsingle, Bool.false_eq_true, if_false]
    exact hcontinued

theorem reads_segments {path : List Member} {last : Member}
    (hpath : Member.PathResolves scope.schema owner path last)
    (hfollow : ∀ word, follow word → word.kind ≠ .slash) :
    Reads (unfold (memberSegment scope) owner) depth (Member.pathWords path) follow True
      (· = path) := by
  have hcount : path.length ≤ (Member.pathWords path).length + 1 := by
    rw [Member.pathWords, ← List.length_map]
    exact length_le_joined _ _
  apply Reads.unfold path.length hcount
  clear hcount
  induction hpath with
  | @last owner member hmember =>
    intro rounds hrounds
    obtain ⟨rounds, rfl⟩ := Nat.exists_eq_add_of_le' hrounds
    refine reads_unfoldUpTo_last ?_ rounds
    apply (reads_memberSegment hmember (reads_continued_last hfollow)).imp
    rintro _ rfl
    exact ⟨rfl, rfl⟩
  | @step owner type member _ path hmember hsingle htype hrest ih =>
    intro rounds hrounds
    obtain ⟨rounds, rfl⟩ := Nat.exists_eq_add_of_le' hrounds
    have hwords : Member.pathWords (member :: path) =
        [.identifier member.name, .slash] ++ Member.pathWords path := by
      cases hrest <;> rfl
    have hstep : Reads (memberSegment scope owner) depth [.identifier member.name, .slash]
        (fun _ => True) True fun result =>
          (∃ next, result.2 = some next ∧ next = type) ∧ result.1 = member := by
      refine (reads_memberSegment hmember (reads_continued_slash hsingle htype)).mono
        (fun _ h => h) Iff.rfl ?_
      rintro _ rfl
      exact ⟨⟨type, rfl, rfl⟩, rfl⟩
    rw [hwords]
    refine (reads_unfoldUpTo_more (R := (· = member)) hstep (ahead_true _ _) ?_).mono
      (fun _ h => h) (iff_of_eq (true_and True).symm) fun _ h => h
    rintro _ _ rfl rfl
    apply (ih (rounds + path.length) (Nat.le_add_left _ _)).imp
    rintro _ rfl
    rfl

theorem reads_memberPath {path : List Member} {last : Member}
    (hpath : Member.PathResolves scope.schema owner path last)
    (hfollow : ∀ word, follow word → word.kind ≠ .slash) :
    Reads (memberPath scope owner) depth (Member.pathWords path) follow True
      (TypedExpression.Of scope owner (.member path)) := by
  intro cursor rest hdepth hpasses hnext
  obtain ⟨hok, -⟩ := reads_segments hpath hfollow hdepth hpasses hnext
  obtain ⟨found, hrun, hfound⟩ := hok trivial
  refine ⟨fun _ => ?_, fun h => absurd trivial h⟩
  rw [memberPath_run, hrun, hfound]
  refine ⟨_, rfl, rfl, ?_⟩
  rw [hpath.getLast?_eq]
  exact .member hpath

/-! ## Calls -/

/-- The kinds of tokens that an operand begins with. -/
def operandKinds : List TokenKind := .openParen :: .parameterAlias :: .identifier :: literalKinds

theorem kind_mem_operandKinds (value : Literal) : value.kind ∈ operandKinds := by
  cases value <;> simp [Literal.kind, operandKinds, literalKinds]

/-- The words of a well-typed expression begin like an operand. -/
theorem exists_words {expression : Expression} {type : ExpressionType}
    (htype : HasType scope owner expression type) :
    ∃ word more, expression.words = word :: more ∧ word.kind ∈ operandKinds := by
  cases htype with
  | literal value => exact ⟨_, _, rfl, kind_mem_operandKinds value⟩
  | member hpath =>
    obtain ⟨first, path, rfl⟩ := hpath.exists_cons
    obtain ⟨more, hwords, -⟩ := Member.exists_pathWords first path
    exact ⟨_, _, hwords, .tail _ (.tail _ (.head _))⟩
  | parameter => exact ⟨_, _, rfl, .tail _ (.head _)⟩
  | not | logical | equality | ordering | arithmetic => exact ⟨_, _, rfl, .head _⟩
  | call => exact ⟨_, _, rfl, .tail _ (.tail _ (.head _))⟩

section Calls

variable {inner : Grammar} {argumentFits : Expression × List Word → Prop}

/-- Arguments are read one after another, each up to a comma or the closing parenthesis. -/
theorem reads_arguments {arguments : List (Expression × List Word)}
    {R : Expression × List Word → TypedExpression → Prop}
    (hfirst : ∀ argument ∈ arguments,
      Ahead argument.2 (fun _ => True) fun word => word.kind ∈ operandKinds)
    (harguments : ∀ argument ∈ arguments, Reads inner.whole depth argument.2
      (fun word => word = .comma ∨ word = .closeParen) (argumentFits argument) (R argument)) :
    Reads (Grammar.arguments inner) depth (Word.joined .comma (arguments.map Prod.snd))
      (· = .closeParen) (∀ argument ∈ arguments, argumentFits argument)
      (List.Forall₂ R arguments) := by
  cases arguments with
  | nil =>
    refine reads_current (R := (· = .closeParen)) (fun _ h => h) ?_
    intro token hword
    rw [← Token.isA_word, hword]
    exact reads_pure (by simp) .nil
  | cons argument arguments =>
    refine reads_current (R := fun word => word.kind ∈ operandKinds) ?_ fun token hmem => ?_
    · have hargument := (List.forall_mem_cons.mp hfirst).1
      rw [List.map_cons]
      cases arguments with
      | nil => exact hargument.follow_mono fun _ _ => trivial
      | cons =>
        rw [Word.joined_cons .comma argument.2 (by simp), List.append_assoc]
        exact hargument.append _
    · have hnot : token.word.isA .closeParen = false := by
        apply Word.isA_eq_false rfl
        intro hclose
        rw [hclose] at hmem
        exact absurd hmem (by decide)
      rw [← Token.isA_word, hnot]
      refine Reads.separated .comma rfl ?_ (List.cons_ne_nil _ _) harguments
      rintro _ rfl
      rfl

/-- Arguments of the classes of the parameters make the call of the class of the method. -/
theorem call_of {method : Method} {arguments : List Expression} {results : List TypedExpression}
    {span : Span} (htype : HasType scope owner (.call method arguments) method.signature.result)
    (hresults : List.Forall₂ (TypedExpression.Of scope owner) arguments results) :
    ∃ typed, TypedExpression.call method results span = .ok typed ∧
      TypedExpression.Of scope owner (.call method arguments) typed := by
  have hmap : results.map TypedExpression.expression = arguments := by
    clear htype
    induction hresults with
    | nil => rfl
    | cons hfirst _ ih => rw [List.map_cons, hfirst.1, ih]
  have htypes : ∀ result ∈ results, HasType scope owner result.expression result.type := by
    clear htype hmap
    induction hresults with
    | nil => simp
    | cons hfirst _ ih => exact List.forall_mem_cons.mpr ⟨hfirst.1 ▸ hfirst.2, ih⟩
  refine ⟨_, (TypedExpression.call_eq_ok_iff htypes).mpr ⟨?_, rfl⟩, ?_, htype⟩
  · rw [hmap]
    exact htype
  · exact congrArg _ hmap

/-- A call, whose arguments are given together with their words. -/
theorem reads_methodCall {method : Method} {type : ExpressionType}
    (arguments : List (Expression × List Word))
    (htype : HasType scope owner (.call method (arguments.map Prod.fst)) type)
    (hfirst : ∀ argument ∈ arguments,
      Ahead argument.2 (fun _ => True) fun word => word.kind ∈ operandKinds)
    (harguments : ∀ argument ∈ arguments, Reads inner.whole depth argument.2
      (fun word => word = .comma ∨ word = .closeParen) (argumentFits argument)
      (TypedExpression.Of scope owner argument.1)) :
    Reads (methodCall inner) depth
      (.identifier method.name :: .openParen ::
        Word.joined .comma (arguments.map Prod.snd) ++ [.closeParen]) follow
      (∀ argument ∈ arguments, argumentFits argument)
      (TypedExpression.Of scope owner (.call method (arguments.map Prod.fst))) := by
  refine reads_current (R := (· = .identifier method.name)) rfl ?_
  intro name hword
  have hmethod : Method.ofName? name.text = some method := by
    rw [show name.text = method.name from congrArg Word.text hword]
    cases method <;> rfl
  simp only [hmethod]
  apply reads_expect rfl
  intro _ _
  apply reads_expect rfl
  intro _ _
  have hread := reads_arguments hfirst harguments
  refine hread.bind_rest rfl ?_
  intro results hresults
  apply reads_expect rfl
  intro last _
  refine reads_ofExcept trivial ?_
  have hresult : type = method.signature.result := by cases htype; rfl
  exact call_of (hresult ▸ htype) (List.forall₂_map_left_iff.mpr hresults)

end Calls

/-! ## Operands -/

section Operands

variable {inner : Grammar} {words : List Word} {fits : Prop} {P : TypedExpression → Prop}

theorem reads_named_null :
    Reads (named scope owner inner) depth (Expression.literal .null).words follow True
      (TypedExpression.Of scope owner (.literal .null)) := by
  apply reads_current (ahead_true _ _)
  intro token _
  exact reads_accept rfl (reads_pure trivial ⟨rfl, .literal .null⟩)

theorem reads_named_boolean (truth : Bool) :
    Reads (named scope owner inner) depth (Expression.literal (.boolean truth)).words follow True
      (TypedExpression.Of scope owner (.literal (.boolean truth))) := by
  refine reads_current (R := (· = (Literal.boolean truth).word)) rfl ?_
  intro token hword
  have hread : Text.sameWord token.text "true" = truth := by
    rw [show token.text = (Literal.boolean truth).print from congrArg Word.text hword]
    cases truth <;> rfl
  have hnull : (Literal.boolean truth).word.isA .null = false := by cases truth <;> rfl
  have hboolean : (Literal.boolean truth).word.isA .boolean = true := by cases truth <;> rfl
  refine declines_accept hnull (reads_accept hboolean (reads_pure trivial ?_))
  rw [hread]
  exact ⟨rfl, .literal _⟩

section Names

variable {name : String} (hname : isConstantName name = false)

include hname

/-- An identifier is a path, unless a parenthesis follows or it is read as a constant. -/
theorem reads_named_path (hopen : Ahead words follow fun word => word.kind ≠ .openParen)
    (hpath : Reads (memberPath scope owner) depth (.identifier name :: words) follow fits P) :
    Reads (named scope owner inner) depth (.identifier name :: words) follow fits P := by
  intro cursor rest hdepth hpasses hfollow
  obtain ⟨hnull, hboolean⟩ := Bool.or_eq_false_iff.mp hname
  have hrun : named scope owner inner cursor = memberPath scope owner cursor := by
    cases hpasses with
    | cons hword hkind hrest =>
      have hnext := hopen.current hrest hfollow
      change cursor.current.word = ⟨.identifier, name⟩ at hword
      rw [← hword, Token.isA_word] at hnull hboolean
      have hcurrent : cursor.current.kind ≠ .endOfInput := by rwa [← Token.word_kind, hword]
      rw [Token.word_kind, ← Cursor.peek_kind hcurrent] at hnext
      rw [named_run, hnull, hboolean, if_neg hnext]
      rfl
  rw [hrun]
  exact hpath hdepth hpasses hfollow

theorem reads_named_call
    (hcall : Reads (nested scope.limits.expressionDepth (methodCall inner)) depth
      (.identifier name :: .openParen :: words) follow fits P) :
    Reads (named scope owner inner) depth (.identifier name :: .openParen :: words) follow fits P := by
  intro cursor rest hdepth hpasses hfollow
  obtain ⟨hnull, hboolean⟩ := Bool.or_eq_false_iff.mp hname
  have hrun : named scope owner inner cursor =
      nested scope.limits.expressionDepth (methodCall inner) cursor := by
    cases hpasses with
    | cons hword hkind hrest =>
      cases hrest with
      | cons hnext _ _ =>
        change cursor.current.word = ⟨.identifier, name⟩ at hword
        rw [← hword, Token.isA_word] at hnull hboolean
        have hcurrent : cursor.current.kind ≠ .endOfInput := by rwa [← Token.word_kind, hword]
        have hpeek : cursor.peek.kind = .openParen := by
          rw [Cursor.peek_kind hcurrent, ← Token.word_kind, hnext]
          rfl
        rw [named_run, hnull, hboolean, if_pos hpeek]
        rfl
  rw [hrun]
  exact hcall hdepth hpasses hfollow

end Names

theorem reads_primary_group
    (hgroup : Reads (nested scope.limits.expressionDepth (group inner)) depth (.openParen :: words)
      follow fits P) :
    Reads (primary scope owner inner) depth (.openParen :: words) follow fits P := by
  refine reads_current (R := (·.kind = .openParen)) rfl ?_
  intro token hkind
  rw [Token.word_kind] at hkind
  simp only [hkind]
  exact hgroup

theorem reads_primary_named {name : String}
    (hnamed : Reads (named scope owner inner) depth (.identifier name :: words) follow fits P) :
    Reads (primary scope owner inner) depth (.identifier name :: words) follow fits P := by
  refine reads_current (R := (·.kind = .identifier)) rfl ?_
  intro token hkind
  rw [Token.word_kind] at hkind
  simp only [hkind]
  exact hnamed

/-- A call, which opens a level for its arguments. -/
theorem reads_primary_call {method : Method} {type : ExpressionType}
    {argumentFits : Expression × List Word → Prop} (arguments : List (Expression × List Word))
    (htype : HasType scope owner (.call method (arguments.map Prod.fst)) type)
    (hfirst : ∀ argument ∈ arguments,
      Ahead argument.2 (fun _ => True) fun word => word.kind ∈ operandKinds)
    (harguments : depth < scope.limits.expressionDepth → ∀ argument ∈ arguments,
      Reads inner.whole (depth + 1) argument.2 (fun word => word = .comma ∨ word = .closeParen)
        (argumentFits argument) (TypedExpression.Of scope owner argument.1)) :
    Reads (primary scope owner inner) depth
      (.identifier method.name :: .openParen ::
        Word.joined .comma (arguments.map Prod.snd) ++ [.closeParen]) follow
      (depth < scope.limits.expressionDepth ∧ ∀ argument ∈ arguments, argumentFits argument)
      (TypedExpression.Of scope owner (.call method (arguments.map Prod.fst))) := by
  have hname : isConstantName method.name = false := by cases method <;> rfl
  refine reads_primary_named (reads_named_call hname (reads_nested fun hdepth => ?_))
  exact reads_methodCall arguments htype hfirst (harguments hdepth)

theorem reads_primary_literal {words : Vocabulary} {value : Literal}
    (hspelled : value.Spelled words) :
    Reads (primary scope owner inner) depth (Expression.literal value).words follow True
      (TypedExpression.Of scope owner (.literal value)) := by
  cases hvalue : value with
  | null => exact reads_primary_named reads_named_null
  | boolean truth => exact reads_primary_named (reads_named_boolean truth)
  | integer | decimal | string | date | dateTimeOffset | guid =>
    rw [hvalue] at hspelled
    apply reads_current (R := (·.kind = value.kind)) (by rw [hvalue]; rfl)
    intro token hkind
    rw [Token.word_kind, hvalue] at hkind
    simp only [hkind, Literal.kind]
    exact reads_literal hspelled (by simp [Literal.kind, literalKinds])

theorem reads_primary_parameter {name : String}
    (hspelled : (Expression.parameter name).Spelled Word.IsToken) :
    Reads (primary scope owner inner) depth (Expression.parameter name).words follow True
      (TypedExpression.Of scope owner (.parameter name)) := by
  refine reads_current (R := (·.kind = .parameterAlias)) rfl ?_
  intro token hkind
  rw [Token.word_kind] at hkind
  simp only [hkind]
  exact reads_parameter hspelled

theorem reads_primary_member {words : Vocabulary} {path : List Member} {last : Member}
    (hpath : Member.PathResolves scope.schema owner path last)
    (hspelled : Member.PathSpelled words path)
    (hfollow : ∀ word, follow word → word.kind ≠ .slash ∧ word.kind ≠ .openParen) :
    Reads (primary scope owner inner) depth (Expression.member path).words follow True
      (TypedExpression.Of scope owner (.member path)) := by
  obtain ⟨first, path, rfl⟩ := hpath.exists_cons
  obtain ⟨more, hwords, hmore⟩ := Member.exists_pathWords first path
  have hread : Reads (memberPath scope owner) depth (Member.pathWords (first :: path)) follow True
      (TypedExpression.Of scope owner (.member (first :: path))) :=
    reads_memberPath hpath fun word hword => (hfollow word hword).1
  change Reads _ _ (Member.pathWords _) _ _ _
  rw [hwords] at hread ⊢
  refine reads_primary_named (reads_named_path (hspelled.2 first rfl) ?_ hread)
  rcases hmore with rfl | hslash
  · exact fun word hword => (hfollow word hword).2
  · obtain ⟨tail, rfl⟩ := List.head?_eq_some_iff.mp hslash
    exact (by decide : Word.slash.kind ≠ .openParen)

end Operands

end Expression.Grammar

end ODataOptions
