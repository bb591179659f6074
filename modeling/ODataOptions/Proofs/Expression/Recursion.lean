import ODataOptions.Proofs.Expression.Stretches
import ODataOptions.Proofs.Parser.Depths
import ODataOptions.Proofs.Parser.Recursion

/-!
# The recursion of the grammar of expressions

The parser of each precedence calls the one of the next tighter precedence at the same place, and goes on in a
loop behind an operand.  Parentheses, negations and calls lead back to looser precedences, behind a token of
theirs.  So the recursion descends: with every call a token has been consumed, or the precedence is tighter.

The levels of the grammars that the parser is built from play no part in this.  There are as many of them as
levels may be open, and one more, so they never run out.
-/

namespace ODataOptions

open ODataOptions.Parser

namespace Expression.Grammar

/-! ## Rules with their parts as parameters -/

def argumentsOf (list : Parser (List TypedExpression)) : Parser (List TypedExpression) := do
  if (← current).isA .closeParen then pure [] else list

def methodCallOf (arguments : Parser (List TypedExpression)) : Parser TypedExpression := do
  let name ← current
  match Method.ofName? name.text with
  | none => throw { problem := .unknownMethod name.text, span := name.span }
  | some method =>
    let _ ← expect .identifier
    let _ ← expect .openParen
    let arguments ← arguments
    let last ← expect .closeParen
    ofExcept (TypedExpression.call method arguments (.cover name.span last.span))

def memberPathOf (members : Parser (List Member)) : Parser TypedExpression := do
  let first ← current
  let path ← members
  let type := (path.getLast?.map ExpressionType.ofMember).getD .structured
  return ⟨.member path, type, .cover first.span (← get).previousSpan⟩

def namedOf (scope : Scope) (call path : Parser TypedExpression) : Parser TypedExpression := do
  let token ← current
  if ← accept .null then
    return ⟨.literal .null, .untyped, token.span⟩
  else if ← accept .boolean then
    return ⟨.literal (.boolean (Text.sameWord token.text "true")), .boolean, token.span⟩
  else if (← get).peek.kind = .openParen then
    nested scope.limits.expressionDepth call
  else
    path

def primaryOf (scope : Scope) (group named : Parser TypedExpression) : Parser TypedExpression := do
  match (← current).kind with
  | .openParen => nested scope.limits.expressionDepth group
  | .integer | .decimal | .string | .date | .dateTimeOffset | .guid => literal
  | .parameterAlias => parameter scope
  | .identifier => named
  | _ => unexpected "expression"

def comparisonOf (operand : Parser TypedExpression) : Parser TypedExpression := do
  let left ← operand
  match ← oneOfWords BinaryOperator.keyword [.eq, .ne, .gt, .ge, .lt, .le] with
  | some operator => ofExcept (TypedExpression.binary operator left (← operand))
  | none => pure left

def negationOf (scope : Scope) (negated operand : Parser TypedExpression) : Parser TypedExpression := do
  if (← current).isWord "not" then nested scope.limits.expressionDepth negated
  else operand

section

variable (scope : Scope) (owner : StructuredType) (inner : Grammar)

/-- The rule of the grammar, with its arguments as a parameter. -/
theorem methodCall_eq : methodCall inner = methodCallOf (argumentsOf (separated inner.whole .comma)) := rfl

theorem primary_eq : primary scope owner inner = primaryOf scope (group inner)
    (namedOf scope (methodCall inner) (memberPathOf (unfold (memberSegment scope) owner))) := rfl

theorem comparison_eq : comparison scope owner inner = comparisonOf (additive scope owner inner) := rfl

theorem negation_eq : negation scope owner inner =
    negationOf scope (negated inner) (comparison scope owner inner) := rfl

end

def filterOf (whole : Parser TypedExpression) : Parser Expression := do
  let filter ← whole
  if filter.type.accepts .boolean then return filter.expression
  else throw { problem := .filterNotBoolean filter.type, span := filter.span }

def keyOf (whole : Parser TypedExpression) : Parser OrderByItem := do
  let key ← whole
  if key.type = .structured then
    throw { problem := .keyNotPrimitive key.expression, span := key.span }
  let descending := (← oneOfWords (if · then "desc" else "asc") [true, false]).getD false
  return { expression := key.expression, descending }

/-! ## What the rules do in a region -/

section Regions

variable {region inside : Cursor → Prop} (hinside : Cursor.Inner region inside) {scope : Scope}
  {inner inner' : Grammar} {first first' second second' : Parser TypedExpression}

include hinside

/-- What stands in parentheses is parsed behind the first of them. -/
theorem sameOn_group (hwhole : SameOn inside inner.whole inner'.whole) :
    SameOn region (group inner) (group inner') := by
  apply SameOn.expect_bind hinside (by decide)
  intro _
  exact hwhole.bind_same _

/-- The operand of a negation is parsed behind the word `not`. -/
theorem sameOn_negated (hoperand : SameOn inside inner.operand inner'.operand) :
    SameOn region (negated inner) (negated inner') := by
  apply SameOn.expect_bind hinside (by decide)
  intro _
  exact hoperand.bind_same _

/-- The arguments of a call are parsed behind the name of the method. -/
theorem sameOn_methodCallOf {list list' : Parser (List TypedExpression)}
    (hself : Cursor.Inner inside inside) (hlist : SameOn inside list list') :
    SameOn region (methodCallOf (argumentsOf list)) (methodCallOf (argumentsOf list')) := by
  have harguments : SameOn inside (argumentsOf list) (argumentsOf list') := by
    apply SameOn.moves_bind hself moves_current
    intro _
    exact .ite (.refl _ _) hlist
  apply SameOn.moves_bind hinside moves_current
  intro name
  cases Method.ofName? name.text with
  | none => exact .refl _ _
  | some method =>
    apply SameOn.expect_bind hinside (by decide)
    intro _
    apply SameOn.moves_bind hself (moves_expect _)
    intro _
    exact harguments.bind_same _

theorem sameOn_memberPathOf {members members' : Parser (List Member)}
    (hmembers : SameOn region members members') :
    SameOn region (memberPathOf members) (memberPathOf members') := by
  apply SameOn.moves_bind hinside moves_current
  intro _
  exact hmembers.bind_same _

theorem sameOn_namedOf (hcall : SameOn region (nested scope.limits.expressionDepth first)
      (nested scope.limits.expressionDepth first')) (hpath : SameOn region second second') :
    SameOn region (namedOf scope first second) (namedOf scope first' second') := by
  apply SameOn.moves_bind hinside moves_current
  intro token
  apply SameOn.moves_bind hinside (moves_accept _)
  intro null
  apply SameOn.ite (.refl _ _)
  apply SameOn.moves_bind hinside (moves_accept _)
  intro boolean
  apply SameOn.ite (.refl _ _)
  apply SameOn.moves_bind hinside moves_get
  intro cursor
  exact .ite hcall hpath

theorem sameOn_primaryOf (hgroup : SameOn region (nested scope.limits.expressionDepth first)
      (nested scope.limits.expressionDepth first')) (hnamed : SameOn region second second') :
    SameOn region (primaryOf scope first second) (primaryOf scope first' second') := by
  apply SameOn.moves_bind hinside moves_current
  intro token
  cases token.kind with
  | openParen => exact hgroup
  | identifier => exact hnamed
  | _ => exact .refl _ _

theorem sameOn_comparisonOf (hoperand : SameOn region first first') (hmoves : Moves first') :
    SameOn region (comparisonOf first) (comparisonOf first') := by
  apply hoperand.bind hinside hmoves
  intro left
  apply SameOn.moves_bind hinside (moves_oneOfWords _ _)
  intro found
  cases found with
  | none => exact .refl _ _
  | some operator => exact hoperand.bind_same _

theorem sameOn_negationOf (hnegated : SameOn region (nested scope.limits.expressionDepth first)
      (nested scope.limits.expressionDepth first')) (hoperand : SameOn region second second') :
    SameOn region (negationOf scope first second) (negationOf scope first' second') := by
  apply SameOn.moves_bind hinside moves_current
  intro _
  exact .ite hnegated hoperand

end Regions

/-! ## The rules move, and consume -/

section Moves

variable {scope : Scope} {owner : StructuredType} {inner : Grammar}

theorem moves_operations {operand : Parser TypedExpression} (hoperand : Moves operand)
    (operators : List BinaryOperator) : Moves (operations operators operand) :=
  moves_chain hoperand (moves_oneOfWords _ _) _

theorem consumes_operations {operand : Parser TypedExpression} (hconsumes : Consumes operand)
    (hmoves : Moves operand) (operators : List BinaryOperator) :
    Consumes (operations operators operand) :=
  hconsumes.chain hmoves (moves_oneOfWords _ _) _

theorem moves_precedence (hinner : inner.Mirrored) (precedence : Precedence) :
    Moves (parser scope owner inner precedence) := by
  cases precedence with
  | disjunction => exact hinner.disjunction.moves
  | conjunction => exact moves_operations hinner.negation.moves _
  | negation => exact hinner.negation.moves
  | comparison => exact hinner.comparison.moves
  | additive => exact hinner.additive.moves
  | multiplicative => exact moves_operations hinner.primary.moves _
  | primary => exact hinner.primary.moves

/-- An operand by itself stands where tokens stand. -/
theorem consumes_primary (levels : Nat) :
    Consumes (primary scope owner (ofLevels scope owner levels)) := by
  intro cursor value rest hrun
  have hstretch : cursor.Stretch rest value.span :=
    (stretches_primary (stretches_ofLevels levels) cursor ⟨rfl, .inl rfl⟩).of_ok hrun
  have hlength := congrArg List.length hstretch.tokens_eq
  have hlt := hstretch.position_lt
  rw [Cursor.length_tokens, Cursor.length_tokens] at hlength
  omega

theorem consumes_comparison (levels : Nat) :
    Consumes (comparison scope owner (ofLevels scope owner levels)) := by
  have hinner := Mirrored.ofLevels scope owner levels
  have hmultiplicative := consumes_operations (consumes_primary levels) hinner.primary.moves
    [.mul, .div, .mod]
  have hadditive := consumes_operations hmultiplicative (moves_operations hinner.primary.moves _)
    [.add, .sub]
  apply hadditive.bind
  intro left
  apply (moves_oneOfWords _ _).bind
  intro found
  cases found with
  | none => exact moves_pure left
  | some operator =>
    apply hinner.additive.moves.bind
    intro _
    exact moves_ofExcept _

theorem consumes_negation (levels : Nat) :
    Consumes (negation scope owner (ofLevels scope owner levels)) := by
  have hinner := Mirrored.ofLevels scope owner levels
  have hnegated : Consumes (negated (ofLevels scope owner levels)) := by
    apply (consumes_expect (by decide)).bind
    intro word
    apply hinner.operand.moves.bind
    intro _
    exact (moves_ofExcept _).map _
  apply moves_current.bind_consumes
  intro token
  split
  · exact hnegated.nested _
  · exact consumes_comparison levels

/-- Whatever is asked for, a token is consumed for it. -/
theorem consumes_precedence (levels : Nat) (precedence : Precedence) :
    Consumes (parser scope owner (ofLevels scope owner levels) precedence) := by
  have hinner := Mirrored.ofLevels scope owner levels
  have hmultiplicative : Consumes (multiplicative scope owner (ofLevels scope owner levels)) :=
    consumes_operations (consumes_primary levels) hinner.primary.moves _
  have hconjunction : Consumes (conjunction scope owner (ofLevels scope owner levels)) :=
    consumes_operations (consumes_negation levels) hinner.negation.moves _
  cases precedence with
  | disjunction =>
    exact consumes_operations hconjunction (moves_operations hinner.negation.moves _) _
  | conjunction => exact hconjunction
  | negation => exact consumes_negation levels
  | comparison => exact consumes_comparison levels
  | additive =>
    exact consumes_operations hmultiplicative (moves_operations hinner.primary.moves _) _
  | multiplicative => exact hmultiplicative
  | primary => exact consumes_primary levels

end Moves

/-! ## Grammars for enough levels -/

section Levels

variable {scope : Scope} {owner : StructuredType} {inner inner' : Grammar} {few many : Nat}

/-- The parts of a grammar are referred back to one level further in. -/
theorem sameOn_precedence (hmirrored : inner'.Mirrored)
    (hwhole : SameOn (Cursor.Suffice scope.limits.expressionDepth few many) inner.whole inner'.whole)
    (hoperand : SameOn (Cursor.Suffice scope.limits.expressionDepth few many) inner.operand
      inner'.operand) (precedence : Precedence) :
    SameOn (Cursor.Suffice scope.limits.expressionDepth (few + 1) (many + 1))
      (parser scope owner inner precedence) (parser scope owner inner' precedence) := by
  have houter := Cursor.inner_suffice scope.limits.expressionDepth (few + 1) (many + 1)
  have hdeeper := Cursor.inner_suffice scope.limits.expressionDepth few many
  have hlist := hwhole.separated hdeeper hmirrored.whole.moves .comma
  have hcall : SameOn (Cursor.Suffice scope.limits.expressionDepth few many) (methodCall inner)
      (methodCall inner') := by
    rw [methodCall_eq, methodCall_eq]
    exact sameOn_methodCallOf hdeeper hdeeper hlist
  have hprimary : SameOn (Cursor.Suffice scope.limits.expressionDepth (few + 1) (many + 1))
      (primary scope owner inner) (primary scope owner inner') := by
    rw [primary_eq, primary_eq]
    exact sameOn_primaryOf houter (sameOn_group hdeeper hwhole).nested_suffice
      (sameOn_namedOf houter hcall.nested_suffice (.refl _ _))
  have hmultiplicative : SameOn _ (multiplicative scope owner inner) (multiplicative scope owner inner') :=
    hprimary.chain houter hmirrored.primary.moves (moves_oneOfWords _ _) _
  have hadditive : SameOn _ (additive scope owner inner) (additive scope owner inner') :=
    hmultiplicative.chain houter (moves_operations hmirrored.primary.moves _) (moves_oneOfWords _ _) _
  have hcomparison : SameOn (Cursor.Suffice scope.limits.expressionDepth (few + 1) (many + 1))
      (comparison scope owner inner) (comparison scope owner inner') := by
    rw [comparison_eq, comparison_eq]
    exact sameOn_comparisonOf houter hadditive hmirrored.additive.moves
  have hnegation : SameOn (Cursor.Suffice scope.limits.expressionDepth (few + 1) (many + 1))
      (negation scope owner inner) (negation scope owner inner') := by
    rw [negation_eq, negation_eq]
    exact sameOn_negationOf houter (sameOn_negated hdeeper hoperand).nested_suffice hcomparison
  have hconjunction : SameOn _ (conjunction scope owner inner) (conjunction scope owner inner') :=
    hnegation.chain houter hmirrored.negation.moves (moves_oneOfWords _ _) _
  cases precedence with
  | disjunction =>
    exact hconjunction.chain houter (moves_operations hmirrored.negation.moves _) (moves_oneOfWords _ _) _
  | conjunction => exact hconjunction
  | negation => exact hnegation
  | comparison => exact hcomparison
  | additive => exact hadditive
  | multiplicative => exact hmultiplicative
  | primary => exact hprimary

/-- Grammars for enough levels do the same. -/
theorem sameOn_ofLevels (few many : Nat) :
    SameOn (Cursor.Suffice scope.limits.expressionDepth few many) (ofLevels scope owner few).whole
        (ofLevels scope owner many).whole ∧
      SameOn (Cursor.Suffice scope.limits.expressionDepth few many) (ofLevels scope owner few).operand
        (ofLevels scope owner many).operand := by
  induction few generalizing many with
  | zero => exact ⟨fun _ hcursor => absurd hcursor.1 (Nat.lt_irrefl 0),
      fun _ hcursor => absurd hcursor.1 (Nat.lt_irrefl 0)⟩
  | succ few ih =>
    cases many with
    | zero => exact ⟨fun _ hcursor => absurd hcursor.2.1 (Nat.lt_irrefl 0),
        fun _ hcursor => absurd hcursor.2.1 (Nat.lt_irrefl 0)⟩
    | succ many =>
      obtain ⟨hwhole, hoperand⟩ := ih many
      have hmirrored := Mirrored.ofLevels scope owner many
      exact ⟨sameOn_precedence hmirrored hwhole hoperand .disjunction,
        sameOn_precedence hmirrored hwhole hoperand .negation⟩

end Levels

def full (scope : Scope) (owner : StructuredType) : Grammar :=
  ofLevels scope owner (scope.limits.expressionDepth + 1)

section Full

variable (scope : Scope) (owner : StructuredType)

/-- The grammar refers back to itself. -/
theorem parser_full_disjunction : parser scope owner (full scope owner) .disjunction =
    (full scope owner).whole :=
  funext fun cursor => (sameOn_ofLevels _ _).1 (cursor.suffice_limit _)

theorem parser_full_negation : parser scope owner (full scope owner) .negation =
    (full scope owner).operand :=
  funext fun cursor => (sameOn_ofLevels _ _).2 (cursor.suffice_limit _)

end Full

/-! ## The recursion -/

/-- The chains of operations. -/
inductive Chain
  | disjunction
  | conjunction
  | sum
  | product

namespace Chain

def operand : Chain → Precedence
  | disjunction => .conjunction
  | conjunction => .negation
  | sum => .multiplicative
  | product => .primary

def operators : Chain → List BinaryOperator
  | disjunction => [.or]
  | conjunction => [.and]
  | sum => [.add, .sub]
  | product => [.mul, .div, .mod]

end Chain

/-- The parsers that call one another: one for the operands of each precedence, and one for each loop from
its state on. -/
inductive Rule
  | filter
  | keys
  | operand (precedence : Precedence)
  | operations (chain : Chain) (left : TypedExpression)
  | arguments
  | members (owner : StructuredType)

namespace Rule

abbrev Value : Rule → Type
  | filter => Expression
  | keys => OrderBy
  | operand _ | operations _ _ => TypedExpression
  | arguments => List TypedExpression
  | members _ => List Member

/-- Filters, sort keys and arguments are whole expressions, and the tighter the precedence, the lower it
stands. -/
def rung : Rule → Nat
  | filter | keys | arguments => 8
  | operand precedence => 7 - precedence.rank
  | operations _ _ | members _ => 0

theorem rung_lt (rule : Rule) : rule.rung < 9 := by
  cases rule <;> simp only [rung] <;> omega

end Rule

section Recursion

variable (scope : Scope) (owner : StructuredType)

def called (calls : Family Rule.Value) : Grammar :=
  ⟨calls (.operand .disjunction), calls (.operand .negation)⟩

def body (calls : Family Rule.Value) : Family Rule.Value
  | .filter => filterOf (calls (.operand .disjunction))
  | .keys =>
    unfoldOnce (separatedStep (keyOf (calls (.operand .disjunction))) .comma) (fun _ => calls .keys) ()
  | .operand .disjunction => do calls (.operations .disjunction (← calls (.operand .conjunction)))
  | .operand .conjunction => do calls (.operations .conjunction (← calls (.operand .negation)))
  | .operand .negation =>
    negationOf scope (negated (called calls)) (calls (.operand .comparison))
  | .operand .comparison => comparisonOf (calls (.operand .additive))
  | .operand .additive => do calls (.operations .sum (← calls (.operand .multiplicative)))
  | .operand .multiplicative => do calls (.operations .product (← calls (.operand .primary)))
  | .operand .primary =>
    primaryOf scope (group (called calls))
      (namedOf scope (methodCallOf (argumentsOf (calls .arguments)))
        (memberPathOf (calls (.members owner))))
  | .operations chain left =>
    iterateOnce (chainStep (calls (.operand chain.operand))
      (oneOfWords BinaryOperator.keyword chain.operators) TypedExpression.binary)
      (fun left => calls (.operations chain left)) left
  | .arguments =>
    unfoldOnce (separatedStep (calls (.operand .disjunction)) .comma) (fun _ => calls .arguments) ()
  | .members owner => unfoldOnce (memberSegment scope) (fun owner => calls (.members owner)) owner

def family : Family Rule.Value
  | .filter => Expression.parseFilter scope owner
  | .keys => OrderBy.parse scope owner
  | .operand precedence => parser scope owner (full scope owner) precedence
  | .operations chain left =>
    iterate (chainStep (parser scope owner (full scope owner) chain.operand)
      (oneOfWords BinaryOperator.keyword chain.operators) TypedExpression.binary) left
  | .arguments => separated (full scope owner).whole .comma
  | .members owner => unfold (memberSegment scope) owner

theorem called_family : called (family scope owner) = full scope owner := by
  rw [called, family, family, parser_full_disjunction, parser_full_negation]

theorem moves_full (precedence : Precedence) : Moves (parser scope owner (full scope owner) precedence) :=
  moves_precedence (Mirrored.ofLevels scope owner _) precedence

theorem consumes_full (precedence : Precedence) :
    Consumes (parser scope owner (full scope owner) precedence) :=
  consumes_precedence _ precedence

theorem moves_key : Moves (keyOf (parser scope owner (full scope owner) .disjunction)) := by
  rw [parser_full_disjunction]
  exact (OrderByItem.mirrors_parse scope owner).moves

theorem progresses_operations (chain : Chain) (left : TypedExpression) :
    Progresses (·.isSome) (chainStep (parser scope owner (full scope owner) chain.operand)
      (oneOfWords BinaryOperator.keyword chain.operators) TypedExpression.binary left) :=
  progresses_chainStep (consumes_full scope owner _) (moves_oneOfWords _ _) _ left

/-- The parsers of the grammar do what the body says. -/
theorem body_family : body scope owner (family scope owner) = family scope owner := by
  have hcalled := called_family scope owner
  funext rule
  cases rule with
  | filter =>
    rw [body, family, family, parser_full_disjunction]
    rfl
  | keys =>
    rw [body, family, family, parser_full_disjunction]
    exact (separated_eq_once (OrderByItem.mirrors_parse scope owner).moves (by decide)).symm
  | operand precedence =>
    cases precedence with
    | negation =>
      exact congrArg (fun grammar => negationOf scope (negated grammar)
        (comparison scope owner (full scope owner))) hcalled
    | primary =>
      exact congrArg (fun grammar => primaryOf scope (group grammar)
        (named scope owner (full scope owner))) hcalled
    | disjunction | conjunction | comparison | additive | multiplicative => rfl
  | operations chain left => exact (iterate_eq_once (progresses_operations scope owner chain) left).symm
  | arguments =>
    rw [body, family, family, parser_full_disjunction]
    exact (separated_eq_once (Mirrored.ofLevels scope owner _).whole.moves (by decide)).symm
  | members owner =>
    exact (unfold_eq_once (fun owner => (consumes_memberSegment owner).progresses) owner).symm

/-- Every call for an operand is made behind a token or is one for a tighter precedence, and every round of a
loop is behind a token. -/
theorem descends_family : Descends Rule.rung (body scope owner) (family scope owner) := by
  apply descends_of_sameOn (body_family scope owner)
  intro calls rule start hbehind hlower
  have hinside := Cursor.inner_behind start 0
  have hself := (Cursor.inner_behind start 1).self
  -- behind the first operand, which is one of the next tighter precedence, a chain goes on in its loop
  have hchain : ∀ (chain : Chain),
      SameOn (Cursor.Behind start 0) (calls (.operand chain.operand))
        (family scope owner (.operand chain.operand)) →
      SameOn (Cursor.Behind start 0)
        (calls (.operand chain.operand) >>= fun left => calls (.operations chain left))
        (family scope owner (.operand chain.operand) >>= fun left =>
          family scope owner (.operations chain left)) := by
    intro chain hoperand
    exact hoperand.bind_consumes hinside (moves_full scope owner _) (consumes_full scope owner _)
      fun left => hbehind (.operations chain left)
  cases rule with
  | filter => exact (hlower (.operand .disjunction) (by decide)).bind_same _
  | keys =>
    have hkey : SameOn (Cursor.Behind start 0) (keyOf (calls (.operand .disjunction)))
        (keyOf (family scope owner (.operand .disjunction))) :=
      (hlower (.operand .disjunction) (by decide)).bind_same _
    have hmoves := moves_key scope owner
    exact .unfoldOnce hinside (hkey.bind_same _) (moves_separatedStep hmoves _ ())
      (progresses_separatedStep hmoves (by decide) ()) fun _ => hbehind .keys
  | operand precedence =>
    cases precedence with
    | disjunction => exact hchain .disjunction (hlower (.operand .conjunction) (by decide))
    | conjunction => exact hchain .conjunction (hlower (.operand .negation) (by decide))
    | negation =>
      have hnegated : SameOn _ (negated (called calls)) (negated (called (family scope owner))) :=
        sameOn_negated hinside (hbehind (.operand .negation))
      exact sameOn_negationOf hinside hnegated.nested_behind (hlower (.operand .comparison) (by decide))
    | comparison =>
      exact sameOn_comparisonOf hinside (hlower (.operand .additive) (by decide))
        (moves_full scope owner .additive)
    | additive => exact hchain .sum (hlower (.operand .multiplicative) (by decide))
    | multiplicative => exact hchain .product (hlower (.operand .primary) (by decide))
    | primary =>
      have hgroup : SameOn _ (group (called calls)) (group (called (family scope owner))) :=
        sameOn_group hinside (hbehind (.operand .disjunction))
      have hcall := sameOn_methodCallOf hinside hself (hbehind .arguments)
      have hpath := sameOn_memberPathOf hinside (hlower (.members owner) Nat.zero_lt_one)
      exact sameOn_primaryOf hinside hgroup.nested_behind
        (sameOn_namedOf hinside hcall.nested_behind hpath)
  | operations chain left =>
    have hstep := SameOn.chainStep_progresses hinside (moves_oneOfWords _ chain.operators)
      (progresses_oneOfWords BinaryOperator.keyword _) (hbehind (.operand chain.operand))
      TypedExpression.binary left
    exact .iterateOnce hinside hstep
      (moves_chainStep (moves_full scope owner _) (moves_oneOfWords _ _) _ left)
      (progresses_operations scope owner chain left) fun left => hbehind (.operations chain left)
  | arguments =>
    have hmoves := moves_full scope owner .disjunction
    have hargument := hlower (.operand .disjunction) (by decide)
    exact .unfoldOnce hinside (hargument.bind_same _) (moves_separatedStep hmoves _ ())
      (progresses_separatedStep hmoves (by decide) ()) fun _ => hbehind .arguments
  | members owner =>
    exact .unfoldOnce hinside (.refl _ _) (mirrors_memberSegment owner).moves
      (consumes_memberSegment owner).progresses fun next => hbehind (.members next)

end Recursion

end Expression.Grammar

end ODataOptions
