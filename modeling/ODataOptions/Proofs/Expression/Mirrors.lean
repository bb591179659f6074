import ODataOptions.OrderBy.Parser
import ODataOptions.Expression.Filter
import ODataOptions.Proofs.Expression.Checks
import ODataOptions.Proofs.Expression.Mistaken
import ODataOptions.Proofs.Parser.Mirrors

/-!
# Expressions do not depend on what follows

An expression that ends before a comma, a semicolon, a closing parenthesis or the end of the input is
parsed alike before each of them.  Only the places of its parts differ.
-/

namespace ODataOptions

open ODataOptions.Parser

namespace TypedExpression

/-- What is parsed, wherever it stands. -/
def unplaced (typed : TypedExpression) : Expression × ExpressionType := (typed.expression, typed.type)

variable {left left' right right' : TypedExpression}

theorem operationType_congr {operator : BinaryOperator} {type : ExpressionType}
    (hleft : left.type = left'.type) (hright : right.type = right'.type)
    (hchecks : operationType operator left right = .ok type) :
    operationType operator left' right' = .ok type := by
  cases operator with
  | or | and | add | sub | mul | div | mod =>
    have hboth := requireBoth_eq_ok_iff.mp hchecks
    rw [hleft, hright] at hboth
    exact requireBoth_eq_ok_iff.mpr hboth
  | eq | ne =>
    have hcomparable := requireEquality_eq_ok_iff.mp hchecks
    rw [hleft, hright] at hcomparable
    exact requireEquality_eq_ok_iff.mpr hcomparable
  | gt | ge | lt | le =>
    have horder := requireOrder_eq_ok_iff.mp hchecks
    rw [hleft, hright] at horder
    exact requireOrder_eq_ok_iff.mpr horder

/-- Whether operands fit an operator does not depend on their places. -/
theorem binary_congr (operator : BinaryOperator) (hleft : left.unplaced = left'.unplaced)
    (hright : right.unplaced = right'.unplaced) (value : TypedExpression)
    (hbinary : binary operator left right = .ok value) :
    ∃ value', binary operator left' right' = .ok value' ∧ value.unplaced = value'.unplaced := by
  obtain ⟨hleft, hleftType⟩ := Prod.mk.inj hleft
  obtain ⟨hright, hrightType⟩ := Prod.mk.inj hright
  obtain ⟨type, htype, hresult⟩ := Fault.bind_eq_ok_iff.mp hbinary
  cases hresult
  have htype' := operationType_congr hleftType hrightType htype
  refine ⟨_, Fault.bind_eq_ok_iff.mpr ⟨type, htype', rfl⟩, ?_⟩
  rw [unplaced, unplaced, hleft, hright]

/-- Whether arguments fit a method does not depend on their places. -/
theorem call_congr {method : Method} {arguments arguments' : List TypedExpression} {span span' : Span}
    (harguments : arguments.map unplaced = arguments'.map unplaced) (value : TypedExpression)
    (hcall : call method arguments span = .ok value) :
    ∃ value', call method arguments' span' = .ok value' ∧ value.unplaced = value'.unplaced := by
  have hexpressions : arguments.map expression = arguments'.map expression := by
    have hfirst := congrArg (List.map Prod.fst) harguments
    rwa [List.map_map, List.map_map] at hfirst
  have htypes : arguments.map type = arguments'.map type := by
    have hsecond := congrArg (List.map Prod.snd) harguments
    rwa [List.map_map, List.map_map] at hsecond
  have hlength : arguments.length = arguments'.length := by
    rw [← List.length_map type, htypes, List.length_map]
  rw [call] at hcall ⊢
  split at hcall
  · next hadmits =>
    obtain ⟨_, hsuit, hresult⟩ := Fault.bind_eq_ok_iff.mp hcall
    cases hresult
    rw [← hlength, if_pos hadmits]
    rw [requireArguments_eq_ok_iff, htypes] at hsuit
    refine ⟨_, Fault.bind_eq_ok_iff.mpr ⟨(), requireArguments_eq_ok_iff.mpr hsuit, rfl⟩, ?_⟩
    rw [unplaced, unplaced, hexpressions]
  · cases hcall

end TypedExpression

/-- The literal that a token stands for is told by its word. -/
theorem Literal.ofToken_congr {token token' : Token} (hword : token.word = token'.word)
    (value : Literal) (hvalue : ofToken token = .ok value) : ofToken token' = .ok value := by
  obtain ⟨kind, text, span⟩ := token
  obtain ⟨kind', text', span'⟩ := token'
  cases hword
  cases kind with
  | integer =>
    simp only [ofToken] at hvalue ⊢
    split at hvalue
    · next hnumber => exact hvalue
    · cases hvalue
  | _ => exact hvalue

theorem ExpressionType.ofToken_congr {token token' : Token} (hword : token.word = token'.word) :
    ofToken token = ofToken token' := by
  obtain ⟨kind, text, span⟩ := token
  obtain ⟨kind', text', span'⟩ := token'
  cases hword
  rfl

theorem Word.EndsAt.startsNone {word : Word} (hends : word.EndsAt .item) : word.StartsNone := by
  intro hmem
  have hdisjoint : ∀ kind ∈ Expression.Grammar.operandKinds,
      kind ∉ Extent.item.kinds := by decide
  exact hdisjoint _ hmem hends

namespace Expression.Grammar

variable {scope : Scope} {owner : StructuredType}

/-! ## Members -/

theorem mirrors_continued (member : Member) :
    Mirrors .item id (memberSegment.continued member) (memberSegment.continued member) := by
  rw [memberSegment.continued]
  split
  · apply (mirrors_accept (by decide)).bind_id
    intro _
    exact mirrors_pure rfl
  · exact mirrors_pure rfl

theorem mirrors_memberSegment (owner : StructuredType) :
    Mirrors .item id (memberSegment scope owner) (memberSegment scope owner) := by
  apply (mirrors_expect (by decide)).bind
  intro token token' hword
  have htext : token'.text = token.text := (congrArg Word.text hword).symm
  rw [htext]
  cases scope.schema.property? owner token.text with
  | some property => exact mirrors_continued _
  | none =>
    cases scope.schema.navigation? owner token.text with
    | none => exact mirrors_throw _
    | some navigation =>
      dsimp only
      split
      · exact mirrors_throw _
      · exact mirrors_continued _

theorem consumes_memberSegment (owner : StructuredType) : Consumes (memberSegment scope owner) := by
  apply (consumes_expect (by decide)).bind
  intro token
  split
  · exact (mirrors_continued _).moves
  · split
    · split
      · exact moves_throw _
      · exact (mirrors_continued _).moves
    · exact moves_throw _

theorem refuses_memberPath : Refuses (memberPath scope owner) (·.EndsAt .item) := by
  have hsegment : Refuses (memberSegment scope owner) (·.EndsAt .item) :=
    (refuses_expect fun word hends => hends.isA_eq_false (by decide)).bind _
  apply refuses_current
  intro token hends
  exact hsegment.unfold.bind _

theorem mirrors_memberPath :
    Mirrors .item TypedExpression.unplaced (memberPath scope owner) (memberPath scope owner) := by
  have hpath := mirrors_unfold_id (@mirrors_memberSegment scope)
    (fun owner => (consumes_memberSegment owner).progresses) owner
  have hbehind : ∀ first first' : Token, Mirrors .item TypedExpression.unplaced (do
      let path ← unfold (memberSegment scope) owner
      let type := (path.getLast?.map ExpressionType.ofMember).getD .structured
      return ⟨.member path, type, .cover first.span (← get).previousSpan⟩) (do
      let path ← unfold (memberSegment scope) owner
      let type := (path.getLast?.map ExpressionType.ofMember).getD .structured
      return ⟨.member path, type, .cover first'.span (← get).previousSpan⟩) := by
    intro first first'
    apply hpath.bind_id
    intro path
    exact mirrors_get.map fun _ _ _ => rfl
  exact mirrors_current (fun first first' _ => hbehind first first')
    fun first first' _ _ => hbehind first first'

/-! ## Operands -/

/-- The parts that a grammar refers back to do not depend on what follows. -/
structure Mirrored (inner : Grammar) : Prop where
  whole : Mirrors .item TypedExpression.unplaced inner.whole inner.whole
  operand : Mirrors .item TypedExpression.unplaced inner.operand inner.operand

namespace Mirrored

variable {inner : Grammar} (hinner : inner.Mirrored)

section Literals

variable {stop stop' cursor cursor' : Cursor} {word : Word} {words : List Word}
  (hends : stop.EndsAlike stop') (hwords : cursor.Passes (word :: words) stop)
  (hwords' : cursor'.Passes (word :: words) stop')

include hends hwords hwords'

omit hinner in
theorem follows_literal :
    Follows .item TypedExpression.unplaced literal literal stop stop' cursor cursor' := by
  apply (follows_next hwords hwords').bind (.inl (List.Subset.refl _))
  · intro token
    exact (moves_ofExcept _).map _
  · intro token token' middle middle' _ hword _ _ hmiddle hmiddle'
    have hvalue : Mirrors .item id (ofExcept (Literal.ofToken token) : Parser Literal)
        (ofExcept (Literal.ofToken token')) :=
      mirrors_ofExcept fun value hvalue => ⟨value, Literal.ofToken_congr hword value hvalue, rfl⟩
    apply (hvalue.map _).follows hends hmiddle hmiddle'
    intro value value' hsame
    rw [show value = value' from hsame, TypedExpression.unplaced, ExpressionType.ofToken_congr hword]
    rfl

omit hinner in
theorem follows_parameter :
    Follows .item TypedExpression.unplaced (parameter scope) (parameter scope) stop stop' cursor
      cursor' := by
  apply (follows_next hwords hwords').bind (.inl (List.Subset.refl _)) fun _ => moves_pure _
  intro token token' middle middle' _ hword _ _ hmiddle hmiddle'
  apply (mirrors_pure _).follows hends hmiddle hmiddle'
  have htext : token.text = token'.text := congrArg Word.text hword
  rw [htext]
  rfl

end Literals

include hinner

theorem group : Mirrors .item TypedExpression.unplaced (group inner) (group inner) := by
  apply (mirrors_expect (by decide)).bind
  intro first first' _
  apply hinner.whole.bind
  intro content content' hcontent
  exact (mirrors_expect (by decide)).map fun _ _ _ => hcontent

/-- The arguments are in parentheses. -/
theorem arguments :
    Mirrors .inside (List.map TypedExpression.unplaced) (arguments inner) (arguments inner) := by
  apply mirrors_current
  · intro token token' hword
    rw [← Token.isA_word token', ← hword, Token.isA_word]
    split
    · exact mirrors_pure rfl
    · exact (hinner.whole.narrow (List.nil_subset _)).separated List.not_mem_nil (by decide)
  · intro _ _ hends
    cases hends

omit hinner in
theorem refuses_methodCall : Refuses (Grammar.methodCall inner) (·.EndsAt .item) := by
  apply refuses_current
  intro name _
  split
  · exact fun _ _ => ⟨_, _, rfl⟩
  · exact (refuses_expect fun word hends => hends.isA_eq_false (by decide)).bind _

theorem methodCall : Mirrors .item TypedExpression.unplaced (methodCall inner) (methodCall inner) := by
  apply mirrors_current_of_refuses _ refuses_methodCall
  intro name name' hword
  have htext : name'.text = name.text := (congrArg Word.text hword).symm
  rw [htext]
  cases Method.ofName? name.text with
  | none => exact mirrors_throw _
  | some method =>
    apply (mirrors_expect (by decide)).bind
    intro _ _ _
    apply (mirrors_expect (by decide)).bind
    intro _ _ _
    apply hinner.arguments.bind_inside
    · intro arguments
      apply (consumes_expect (by decide)).bind
      intro _
      exact moves_ofExcept _
    · intro arguments arguments' harguments
      apply (mirrors_expect (by decide)).bind
      intro last last' _
      exact mirrors_ofExcept (TypedExpression.call_congr harguments)

omit hinner in
theorem refuses_named : Refuses (Grammar.named scope owner inner) (·.EndsAt .item) := by
  intro cursor hends
  rw [named_run, ← Token.isA_word, hends.isA_eq_false (by decide), ← Token.isA_word,
    hends.isA_eq_false (by decide)]
  simp only [Bool.false_eq_true, if_false]
  split
  · exact refuses_methodCall.nested _ cursor hends
  · exact refuses_memberPath cursor hends

theorem named :
    Mirrors .item TypedExpression.unplaced (named scope owner inner) (named scope owner inner) := by
  apply mirrors_current_of_refuses _ refuses_named
  intro token token' hword
  have htext : token'.text = token.text := (congrArg Word.text hword).symm
  rw [htext]
  apply (mirrors_accept (by decide)).bind_bool
  · exact mirrors_pure rfl
  · apply (mirrors_accept (by decide)).bind_bool
    · exact mirrors_pure rfl
    · exact mirrors_peek (by decide) (hinner.methodCall.nested _) mirrors_memberPath
        (refuses_methodCall.nested _) refuses_memberPath

theorem primary :
    Mirrors .item TypedExpression.unplaced (primary scope owner inner) (primary scope owner inner) := by
  apply mirrors_of_cases
  · apply moves_current.bind
    intro token
    cases token.kind with
    | openParen => exact hinner.group.moves.nested _
    | identifier => exact hinner.named.moves
    | parameterAlias => exact moves_next.map _
    | integer | decimal | string | date | dateTimeOffset | guid =>
      apply moves_next.bind
      intro _
      exact (moves_ofExcept _).map _
    | _ => exact moves_unexpected _
  · intro _ stop stop' hends
    exact follows_of_refuses (refuses_primary.mono fun _ hword => hword.startsNone) hends.first
  · intro stop stop' hends cursor cursor' word words hwords hwords'
    have hkind : cursor'.current.kind = cursor.current.kind := by
      rw [← Token.word_kind, ← Token.word_kind, hwords.current_word, hwords'.current_word]
    intro value rest more
    rw [Grammar.primary, bind_run, bind_run, current_run, current_run]
    dsimp only
    rw [hkind]
    cases cursor.current.kind with
    | openParen => apply (hinner.group.nested _).follows hends hwords hwords'
    | identifier => apply hinner.named.follows hends hwords hwords'
    | parameterAlias => apply follows_parameter hends hwords hwords'
    | integer | decimal | string | date | dateTimeOffset | guid =>
      apply follows_literal hends hwords hwords'
    | _ => apply (mirrors_unexpected _).follows hends hwords hwords'

/-! ## Operations -/

omit hinner in
theorem operations {operand : Parser TypedExpression}
    (hoperand : Mirrors .item TypedExpression.unplaced operand operand)
    (operators : List BinaryOperator) :
    Mirrors .item TypedExpression.unplaced (operations operators operand)
      (operations operators operand) := by
  apply mirrors_chain hoperand (mirrors_oneOfWords _ _) (.inl (progresses_oneOfWords _ _))
  intro operator left left' right right' hleft hright
  exact TypedExpression.binary_congr operator hleft hright

theorem additive : Mirrors .item TypedExpression.unplaced (additive scope owner inner)
    (additive scope owner inner) :=
  operations (operations hinner.primary _) _

theorem comparison : Mirrors .item TypedExpression.unplaced (comparison scope owner inner)
    (comparison scope owner inner) := by
  apply hinner.additive.bind
  intro left left' hleft
  apply (mirrors_oneOfWords _ _).bind_id
  intro found
  cases found with
  | none => exact mirrors_pure hleft
  | some operator =>
    apply hinner.additive.bind
    intro right right' hright
    exact mirrors_ofExcept (TypedExpression.binary_congr operator hleft hright)

theorem negated : Mirrors .item TypedExpression.unplaced (negated inner) (negated inner) := by
  apply (mirrors_expect (by decide)).bind
  intro word word' _
  apply hinner.operand.bind
  intro operand operand' hoperand
  obtain ⟨hexpression, htype⟩ := Prod.mk.inj hoperand
  have hchecks : Mirrors .item id (ofExcept (operand.require "not" .boolean) : Parser Unit)
      (ofExcept (operand'.require "not" .boolean)) := by
    apply mirrors_ofExcept
    intro value hsuits
    rw [TypedExpression.require_eq_ok_iff, htype] at hsuits
    exact ⟨value, TypedExpression.require_eq_ok_iff.mpr hsuits, rfl⟩
  apply hchecks.map
  intro _ _ _
  rw [TypedExpression.unplaced, TypedExpression.unplaced, hexpression]

theorem negation : Mirrors .item TypedExpression.unplaced (negation scope owner inner)
    (negation scope owner inner) := by
  apply mirrors_current_test (·.isWord "not") fun word hends => hends.isWord_eq_false "not"
  intro token token' hnot
  rw [Token.isWord_word, Token.isWord_word] at hnot
  rw [hnot]
  split
  · exact hinner.negated.nested _
  · exact hinner.comparison

theorem disjunction : Mirrors .item TypedExpression.unplaced (disjunction scope owner inner)
    (disjunction scope owner inner) :=
  operations (operations hinner.negation _) _

omit hinner in
theorem ofLevels (scope : Scope) (owner : StructuredType) (levels : Nat) :
    (ofLevels scope owner levels).Mirrored := by
  induction levels with
  | zero => exact ⟨mirrors_failHere _, mirrors_failHere _⟩
  | succ levels ih => exact ⟨ih.disjunction, ih.negation⟩

end Mirrored

end Expression.Grammar

section

variable (scope : Scope) (owner : StructuredType)

theorem Expression.mirrors_parse :
    Mirrors .item TypedExpression.unplaced (Expression.parse scope owner)
      (Expression.parse scope owner) :=
  (Grammar.Mirrored.ofLevels scope owner _).whole

theorem Expression.mirrors_parseFilter :
    Mirrors .item id (Expression.parseFilter scope owner) (Expression.parseFilter scope owner) := by
  apply (Expression.mirrors_parse scope owner).bind
  intro filter filter' hfilter
  obtain ⟨hexpression, htype⟩ := Prod.mk.inj hfilter
  rw [← htype, ← hexpression]
  split
  · exact mirrors_pure rfl
  · exact mirrors_throw _

theorem OrderByItem.mirrors_parse :
    Mirrors .item id (OrderByItem.parse scope owner) (OrderByItem.parse scope owner) := by
  apply (Expression.mirrors_parse scope owner).bind
  intro key key' hkey
  obtain ⟨hexpression, htype⟩ := Prod.mk.inj hkey
  have hdirection : Mirrors .item id (do
      let descending := (← oneOfWords (if · then "desc" else "asc") [true, false]).getD false
      return { expression := key.expression, descending : OrderByItem }) (do
      let descending := (← oneOfWords (if · then "desc" else "asc") [true, false]).getD false
      return { expression := key.expression, descending }) := by
    apply (mirrors_oneOfWords _ _).bind_id
    intro _
    exact mirrors_pure rfl
  rw [← htype, ← hexpression]
  split
  · exact Mirrors.bind_id (mirrors_throw _) fun _ => hdirection
  · exact hdirection

theorem OrderBy.mirrors_parse :
    Mirrors .value id (OrderBy.parse scope owner) (OrderBy.parse scope owner) :=
  ((OrderByItem.mirrors_parse scope owner).narrow (by decide)).separated_id (by decide) (by decide)

end

end ODataOptions
