import ODataOptions.Proofs.Expression.Checks
import ODataOptions.Proofs.Expression.Spelling
import ODataOptions.Proofs.Parser.Yields
import ODataOptions.Proofs.Schema.Lookup

/-!
# Parsed expressions are well typed

The parser computes the class of an expression while it builds the tree.  Each rule of the grammar
yields expressions that the reference judgement types with the class computed, and that are spelled
from the words parsed.
-/

namespace ODataOptions

open ODataOptions.Parser

/-- The computed class is the one of the judgement, and the words are of the vocabulary. -/
def TypedExpression.Sound (scope : Scope) (owner : StructuredType) (words : Vocabulary)
    (typed : TypedExpression) : Prop :=
  Expression.HasType scope owner typed.expression typed.type ∧ typed.expression.Spelled words

namespace Expression.Grammar

variable {scope : Scope} {owner : StructuredType} {words : Vocabulary}

/-! ## Literals and parameters -/

/-- A literal fails only where its token stands for no constant. -/
theorem literal_run (cursor : Cursor) :
    literal cursor =
      match Literal.ofToken cursor.current with
      | .ok value =>
        .ok ⟨.literal value, .ofToken cursor.current, cursor.current.span⟩ cursor.advance
      | .error fault => .error fault cursor.advance := by
  rw [literal, bind_run, next_run]
  change ((ofExcept _ >>= _) : Parser _) _ = _
  rw [bind_run, ofExcept_run]
  cases Literal.ofToken cursor.current <;> rfl

/-- The kinds of tokens that are constants by their kind alone. -/
def literalKinds : List TokenKind := [.integer, .decimal, .string, .date, .dateTimeOffset, .guid]

theorem literal_ofToken_sound {token : Token} {value : Literal}
    (hkind : token.kind ∈ literalKinds) (hvalue : Literal.ofToken token = .ok value)
    (hword : words token.word) :
    value.type = .ofToken token ∧ value.Spelled words := by
  obtain ⟨kind, text, span⟩ := token
  simp only [literalKinds, List.mem_cons, List.not_mem_nil, or_false] at hkind
  rcases hkind with rfl | rfl | rfl | rfl | rfl | rfl
  · simp only [Literal.ofToken] at hvalue
    split at hvalue
    · next number hnumber =>
      cases hvalue
      exact ⟨rfl, (Option.filter_eq_some_iff.mp hnumber).2⟩
    · cases hvalue
  all_goals
    cases hvalue
    exact ⟨rfl, by first | exact hword | trivial⟩

/-- Constants have the class that their token tells. -/
theorem literal_sound {cursor rest : Cursor} {typed : TypedExpression}
    (hkind : cursor.current.kind ∈ literalKinds) (hover : cursor.Over words)
    (hrun : literal cursor = .ok typed rest) :
    typed.Sound scope owner words ∧ rest.Over words := by
  rw [literal_run] at hrun
  split at hrun
  · next value hvalue =>
    cases hrun
    have hword : words cursor.current.word :=
      hover.current (fun hend => by rw [hend] at hkind; exact absurd hkind (by decide))
    obtain ⟨htype, hspelled⟩ := literal_ofToken_sound hkind hvalue hword
    refine ⟨⟨?_, hspelled⟩, hover.advance⟩
    rw [← htype]
    exact .literal value
  · cases hrun

theorem parameter_sound {cursor rest : Cursor} {typed : TypedExpression}
    (hkind : cursor.current.kind = .parameterAlias) (hover : cursor.Over words)
    (hrun : parameter scope cursor = .ok typed rest) :
    typed.Sound scope owner words ∧ rest.Over words := by
  rw [parameter, bind_run, next_run] at hrun
  cases hrun
  have hword := hover.current (by rw [hkind]; decide)
  refine ⟨⟨.parameter _, cursor.current.text, ?_, rfl⟩, hover.advance⟩
  rw [← hkind]
  exact hword

/-! ## Member paths -/

theorem yields_continued {member : Member} (hmember : member.Resolves scope.schema owner)
    (hword : words ⟨.identifier, member.name⟩) :
    Yields words (memberSegment.continued member) fun result =>
      result.1.Resolves scope.schema owner ∧ words ⟨.identifier, result.1.name⟩ ∧
        ∀ type ∈ result.2, result.1.collection = false ∧ result.1.type? = some type := by
  rw [memberSegment.continued]
  cases hnext : next? member with
  | none => exact .pure ⟨hmember, hword, by simp⟩
  | some type =>
    refine (yields_accept .slash).map fun more _ => ⟨hmember, hword, fun other hother => ?_⟩
    rw [next?] at hnext
    split at hnext
    · cases hnext
    · next hsingle =>
      cases more with
      | false => cases hother
      | true =>
        cases hother
        exact ⟨by simpa using hsingle, hnext⟩

/-- A path goes on only at a single value of structured type. -/
theorem yields_memberSegment :
    Yields words (memberSegment scope owner) fun result =>
      result.1.Resolves scope.schema owner ∧ words ⟨.identifier, result.1.name⟩ ∧
        ∀ type ∈ result.2, result.1.collection = false ∧ result.1.type? = some type := by
  apply (yields_expect (by decide)).bind
  intro token htoken
  obtain ⟨hisA, hword⟩ := htoken
  have hkind : token.kind = .identifier := (Token.isA_iff_kind_eq rfl).mp hisA
  rw [Token.word, hkind] at hword
  cases hproperty : scope.schema.property? owner token.text with
  | some property =>
    have hname := Schema.name_of_property? hproperty
    rw [← hname] at hproperty hword
    exact yields_continued (.property hproperty) hword
  | none =>
    cases hnavigation : scope.schema.navigation? owner token.text with
    | none => exact yields_throw _
    | some navigation =>
      have hname := Schema.name_of_navigation? hnavigation
      rw [← hname] at hproperty hnavigation hword
      cases hcollection : navigation.collection with
      | true =>
        simp only [hcollection, if_true]
        exact yields_throw _
      | false =>
        simp only [hcollection, Bool.false_eq_true, if_false]
        exact yields_continued (.navigation hproperty hnavigation hcollection) hword

theorem continued_fst {member : Member} {cursor rest : Cursor}
    {result : Member × Option StructuredType}
    (hrun : memberSegment.continued member cursor = .ok result rest) : result.1 = member := by
  rw [memberSegment.continued] at hrun
  cases hnext : next? member with
  | none =>
    rw [hnext] at hrun
    cases hrun
    rfl
  | some type =>
    rw [hnext] at hrun
    obtain ⟨_, _, _, hresult⟩ := bind_eq_ok_iff.mp hrun
    cases hresult
    rfl

/-- A segment is named by the token that it is read from. -/
theorem memberSegment_name {cursor rest : Cursor} {result : Member × Option StructuredType}
    (hrun : memberSegment scope owner cursor = .ok result rest) :
    cursor.current.kind = .identifier ∧ result.1.name = cursor.current.text := by
  obtain ⟨token, middle, htoken, hrest⟩ := bind_eq_ok_iff.mp hrun
  rw [expect_run] at htoken
  split at htoken
  · next hisA =>
    cases htoken
    refine ⟨(Token.isA_iff_kind_eq rfl).mp hisA, ?_⟩
    cases hproperty : scope.schema.property? owner cursor.current.text with
    | some property =>
      rw [hproperty] at hrest
      rw [continued_fst hrest]
      exact Schema.name_of_property? hproperty
    | none =>
      rw [hproperty] at hrest
      cases hnavigation : scope.schema.navigation? owner cursor.current.text with
      | none =>
        rw [hnavigation] at hrest
        cases hrest
      | some navigation =>
        rw [hnavigation] at hrest
        cases hcollection : navigation.collection with
        | true =>
          simp only [hcollection, if_true] at hrest
          cases hrest
        | false =>
          simp only [hcollection, Bool.false_eq_true, if_false] at hrest
          rw [continued_fst hrest]
          exact Schema.name_of_navigation? hnavigation
  · cases htoken

theorem yields_memberPath_segments :
    Yields words (unfold (memberSegment scope) owner) fun path =>
      (∃ last, Member.PathResolves scope.schema owner path last) ∧
        ∀ member ∈ path, words ⟨.identifier, member.name⟩ := by
  apply (yields_unfold (L := fun owner path =>
      (path ≠ [] → ∃ last, Member.PathResolves scope.schema owner path last) ∧
        ∀ member ∈ path, words ⟨.identifier, member.name⟩)
    _ (fun _ => by simp) owner).mono fun path hpath => ⟨hpath.2.1 hpath.1, hpath.2.2⟩
  intro owner
  apply yields_memberSegment.mono
  intro result hresult
  obtain ⟨member, next?⟩ := result
  obtain ⟨hmember, hword, hnext⟩ := hresult
  cases next? with
  | none => exact ⟨fun _ => ⟨member, .last hmember⟩, by simpa using hword⟩
  | some type =>
    obtain ⟨hsingle, htype⟩ := hnext type rfl
    refine fun path hpath => ⟨fun _ => ?_, List.forall_mem_cons.mpr ⟨hword, hpath.2⟩⟩
    rcases List.eq_nil_or_concat path with rfl | ⟨_, _, rfl⟩
    · exact ⟨member, .last hmember⟩
    · obtain ⟨last, hlast⟩ := hpath.1 (by simp)
      exact ⟨last, .step hmember hsingle htype hlast⟩

/-- The class of a path is that of its last member. -/
theorem memberPath_run (cursor : Cursor) :
    memberPath scope owner cursor =
      match unfold (memberSegment scope) owner cursor with
      | .ok path rest =>
        .ok ⟨.member path, (path.getLast?.map ExpressionType.ofMember).getD .structured,
          .cover cursor.current.span rest.previousSpan⟩ rest
      | .error fault rest => .error fault rest := by
  rw [memberPath, bind_run, current_run]
  change ((unfold _ _ >>= _) : Parser _) _ = _
  rw [bind_run]
  cases unfold (memberSegment scope) owner cursor <;> rfl

/-- A path is not one of the words that are read as constants, for these are tried first. -/
theorem memberPath_sound {cursor rest : Cursor} {typed : TypedExpression}
    (hnull : cursor.current.isA .null = false) (hboolean : cursor.current.isA .boolean = false)
    (hover : cursor.Over words) (hrun : memberPath scope owner cursor = .ok typed rest) :
    typed.Sound scope owner words ∧ rest.Over words := by
  rw [memberPath_run] at hrun
  split at hrun
  · next path middle hpath =>
    cases hrun
    obtain ⟨⟨⟨last, hlast⟩, hwords⟩, hrest⟩ := yields_memberPath_segments hover hpath
    refine ⟨⟨?_, hwords, fun first hfirst => ?_⟩, hrest⟩
    · rw [hlast.getLast?_eq]
      exact .member hlast
    · obtain ⟨result, _, hstep, hhead⟩ := head?_unfold hpath
      obtain ⟨hkind, hname⟩ := memberSegment_name hstep
      rw [hhead] at hfirst
      obtain rfl := Option.some.inj hfirst
      have hword : (⟨.identifier, result.1.name⟩ : Word) = cursor.current.word := by
        rw [hname, ← hkind, Token.word]
      rw [isConstantName, hword, Token.isA_word, Token.isA_word, hnull, hboolean]
      rfl
  · cases hrun

/-! ## Operands -/

/-- The parts that a grammar refers back to yield well-typed expressions. -/
structure Sound (scope : Scope) (owner : StructuredType) (words : Vocabulary) (inner : Grammar) :
    Prop where
  whole : Yields words inner.whole (TypedExpression.Sound scope owner words)
  operand : Yields words inner.operand (TypedExpression.Sound scope owner words)

section Operands

variable {inner : Grammar}

theorem Sound.group (hinner : inner.Sound scope owner words) :
    Yields words (group inner) (TypedExpression.Sound scope owner words) := by
  apply (yields_expect (by decide)).bind
  intro _ _
  apply hinner.whole.bind
  intro _ hcontent
  apply (yields_expect (by decide)).map
  intro _ _
  exact hcontent

theorem Sound.arguments (hinner : inner.Sound scope owner words) :
    Yields words (arguments inner) fun arguments =>
      ∀ argument ∈ arguments, argument.Sound scope owner words := by
  apply yields_current.bind
  intro token _
  split
  · exact .pure (by simp)
  · exact (hinner.whole.separated .comma).mono fun _ harguments => harguments.2

theorem call_sound {method : Method} {arguments : List TypedExpression} {span : Span}
    {typed : TypedExpression}
    (harguments : ∀ argument ∈ arguments, argument.Sound scope owner words)
    (hcall : TypedExpression.call method arguments span = .ok typed) :
    typed.Sound scope owner words := by
  have htypes := fun argument hmem => (harguments argument hmem).1
  obtain ⟨htype, rfl⟩ := (TypedExpression.call_eq_ok_iff htypes).mp hcall
  refine ⟨htype, Expression.allSpelled_iff.mpr fun expression hmem => ?_⟩
  obtain ⟨argument, hargument, rfl⟩ := List.mem_map.mp hmem
  exact (harguments argument hargument).2

theorem Sound.methodCall (hinner : inner.Sound scope owner words) :
    Yields words (methodCall inner) (TypedExpression.Sound scope owner words) := by
  apply yields_current.bind
  intro name _
  split
  · exact yields_throw _
  · apply (yields_expect (by decide)).bind
    intro _ _
    apply (yields_expect (by decide)).bind
    intro _ _
    apply hinner.arguments.bind
    intro arguments harguments
    apply (yields_expect (by decide)).bind
    intro _ _
    exact yields_ofExcept fun _ hcall => call_sound harguments hcall

/-- What an identifier stands for, decided in the order of the grammar. -/
theorem named_run (cursor : Cursor) :
    named scope owner inner cursor =
      if cursor.current.isA .null then
        .ok ⟨.literal .null, .untyped, cursor.current.span⟩ cursor.advance
      else if cursor.current.isA .boolean then
        .ok ⟨.literal (.boolean (Text.sameWord cursor.current.text "true")), .boolean,
          cursor.current.span⟩ cursor.advance
      else if cursor.peek.kind = .openParen then
        nested scope.limits.expressionDepth (methodCall inner) cursor
      else memberPath scope owner cursor := by
  rw [named, bind_run, current_run]
  change ((accept .null >>= _) : Parser _) _ = _
  rw [bind_run, accept_run]
  cases hnull : cursor.current.isA .null
  · change ((accept .boolean >>= _) : Parser _) _ = _
    rw [bind_run, accept_run]
    cases hboolean : cursor.current.isA .boolean
    · simp only [Bool.false_eq_true, if_false]
      change ((get >>= _) : Parser _) _ = _
      rw [bind_run, get_run]
      simp only
      split <;> rfl
    · rfl
  · rfl

theorem Sound.named (hinner : inner.Sound scope owner words) :
    Yields words (named scope owner inner) (TypedExpression.Sound scope owner words) := by
  intro cursor typed rest hover hrun
  rw [named_run] at hrun
  split at hrun
  · cases hrun
    exact ⟨⟨.literal .null, trivial⟩, hover.advance⟩
  · next hnull =>
    split at hrun
    · cases hrun
      exact ⟨⟨.literal (.boolean _), trivial⟩, hover.advance⟩
    · next hboolean =>
      split at hrun
      · exact hinner.methodCall.nested _ hover hrun
      · rw [Bool.not_eq_true] at hnull hboolean
        exact memberPath_sound hnull hboolean hover hrun

theorem Sound.primary (hinner : inner.Sound scope owner words) :
    Yields words (primary scope owner inner) (TypedExpression.Sound scope owner words) := by
  intro cursor typed rest hover hrun
  rw [Grammar.primary, bind_run, current_run] at hrun
  cases hkind : cursor.current.kind <;> simp only [hkind] at hrun
  case openParen => exact hinner.group.nested _ hover hrun
  case identifier => exact hinner.named hover hrun
  case parameterAlias => exact parameter_sound hkind hover hrun
  case integer | decimal | string | date | dateTimeOffset | guid =>
    exact literal_sound (by rw [hkind]; decide) hover hrun
  all_goals exact yields_unexpected _ hover hrun

end Operands

/-! ## Operations -/

/-- An operation has the class that the judgement gives it. -/
theorem binary_sound {operator : BinaryOperator} {left right typed : TypedExpression}
    (hleft : left.Sound scope owner words) (hright : right.Sound scope owner words)
    (hbinary : TypedExpression.binary operator left right = .ok typed) :
    typed.Sound scope owner words := by
  obtain ⟨type, htype, hresult⟩ := Fault.bind_eq_ok_iff.mp hbinary
  cases hresult
  exact ⟨(TypedExpression.operationType_eq_ok_iff hleft.1 hright.1).mp htype, hleft.2, hright.2⟩

/-- Chains are well typed, by the invariant that what has been combined is. -/
theorem yields_operations {operators : List BinaryOperator} {operand : Parser TypedExpression}
    (hoperand : Yields words operand (TypedExpression.Sound scope owner words)) :
    Yields words (operations operators operand) (TypedExpression.Sound scope owner words) :=
  hoperand.chain ((yields_oneOfWords _ _).mono fun _ _ => trivial)
    fun _ _ _ _ hleft hright hvalue => binary_sound hleft hright hvalue

section Operations

variable {inner : Grammar}

theorem Sound.additive (hinner : inner.Sound scope owner words) :
    Yields words (additive scope owner inner) (TypedExpression.Sound scope owner words) :=
  yields_operations (yields_operations hinner.primary)

theorem Sound.comparison (hinner : inner.Sound scope owner words) :
    Yields words (comparison scope owner inner) (TypedExpression.Sound scope owner words) := by
  apply hinner.additive.bind
  intro left hleft
  apply (yields_oneOfWords _ _).bind
  intro found _
  cases found with
  | none => exact .pure hleft
  | some operator =>
    apply hinner.additive.bind
    intro right hright
    apply yields_ofExcept
    intro _ hvalue
    exact binary_sound hleft hright hvalue

theorem Sound.negated (hinner : inner.Sound scope owner words) :
    Yields words (negated inner) (TypedExpression.Sound scope owner words) := by
  apply (yields_expect (by decide)).bind
  intro word _
  apply hinner.operand.bind
  intro operand hoperand
  apply (yields_ofExcept fun _ hchecks => TypedExpression.require_eq_ok_iff.mp hchecks).bind
  intro _ hsuits
  exact .pure ⟨.not hoperand.1 hsuits, hoperand.2⟩

theorem Sound.negation (hinner : inner.Sound scope owner words) :
    Yields words (negation scope owner inner) (TypedExpression.Sound scope owner words) := by
  apply yields_current.bind
  intro token _
  split
  · exact hinner.negated.nested _
  · exact hinner.comparison

theorem Sound.disjunction (hinner : inner.Sound scope owner words) :
    Yields words (disjunction scope owner inner) (TypedExpression.Sound scope owner words) :=
  yields_operations (yields_operations hinner.negation)

end Operations

theorem sound_ofLevels (scope : Scope) (owner : StructuredType) (words : Vocabulary)
    (levels : Nat) : (ofLevels scope owner levels).Sound scope owner words := by
  induction levels with
  | zero => exact ⟨yields_failHere _, yields_failHere _⟩
  | succ levels ih => exact ⟨ih.disjunction, ih.negation⟩

end Expression.Grammar

end ODataOptions
