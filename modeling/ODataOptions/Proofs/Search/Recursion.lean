import ODataOptions.Proofs.Parser.Recursion
import ODataOptions.Proofs.Search.Mirrors

/-!
# The recursion of the grammar of search expressions

The parser of each precedence calls the one of the next tighter precedence at the same place and goes on in a
loop behind an operand.  Where `AND` is left out, a round of the loop has consumed nothing when it calls for
its next operand; so the loop stands on a rung between conjunctions and negations, and comes to its next round
behind that operand.  Parentheses and negations lead back to looser precedences behind a token of theirs.
-/

namespace ODataOptions

open ODataOptions.Parser

namespace SearchExpression.Grammar

def negationOf (limits : Limits) (negated operand : Parser SearchExpression) :
    Parser SearchExpression := do
  if (← current).isWord "NOT" then nested limits.expressionDepth negated
  else operand

theorem negation_eq (limits : Limits) (inner : Grammar) :
    negation limits inner = negationOf limits (negated inner) (primary limits inner) := rfl

/-! ## What the rules do in a region -/

section Regions

variable {region inside : Cursor → Prop} (hinside : Cursor.Inner region inside) {limits : Limits}
  {inner inner' : Grammar}

include hinside

/-- What stands in parentheses is parsed behind the first of them. -/
theorem sameOn_group (hwhole : SameOn inside inner.whole inner'.whole) :
    SameOn region (group inner) (group inner') := by
  apply SameOn.expect_bind hinside (by decide)
  intro _
  exact hwhole.bind_same _

/-- The operand of a negation is parsed behind the word `NOT`. -/
theorem sameOn_negated (hoperand : SameOn inside inner.operand inner'.operand) :
    SameOn region (negated inner) (negated inner') := by
  apply SameOn.expect_bind hinside (by decide)
  intro _
  exact hoperand.bind_same _

theorem sameOn_primary (hgroup : SameOn region (nested limits.expressionDepth (group inner))
    (nested limits.expressionDepth (group inner'))) :
    SameOn region (primary limits inner) (primary limits inner') := by
  apply SameOn.moves_bind hinside moves_current
  intro _
  exact .ite hgroup (.refl _ _)

theorem sameOn_negationOf {first first' second second' : Parser SearchExpression}
    (hnegated : SameOn region (nested limits.expressionDepth first)
      (nested limits.expressionDepth first')) (hoperand : SameOn region second second') :
    SameOn region (negationOf limits first second) (negationOf limits first' second') := by
  apply SameOn.moves_bind hinside moves_current
  intro _
  exact .ite hnegated hoperand

end Regions

/-! ## Grammars for enough levels -/

section Levels

variable {limits : Limits} {inner inner' : Grammar} {few many : Nat}
  (hwhole : SameOn (Cursor.Suffice limits.expressionDepth few many) inner.whole inner'.whole)
  (hoperand : SameOn (Cursor.Suffice limits.expressionDepth few many) inner.operand inner'.operand)

include hwhole hoperand

/-- The parts of a grammar are referred back to one level further in. -/
theorem sameOn_negation :
    SameOn (Cursor.Suffice limits.expressionDepth (few + 1) (many + 1)) (negation limits inner)
      (negation limits inner') := by
  have houter := Cursor.inner_suffice limits.expressionDepth (few + 1) (many + 1)
  have hdeeper := Cursor.inner_suffice limits.expressionDepth few many
  have hprimary := sameOn_primary houter (sameOn_group hdeeper hwhole).nested_suffice
  rw [negation_eq, negation_eq]
  exact sameOn_negationOf houter (sameOn_negated hdeeper hoperand).nested_suffice hprimary

theorem sameOn_disjunction (hmirrored : inner'.Mirrored) :
    SameOn (Cursor.Suffice limits.expressionDepth (few + 1) (many + 1)) (disjunction limits inner)
      (disjunction limits inner') := by
  have houter := Cursor.inner_suffice limits.expressionDepth (few + 1) (many + 1)
  have hconjunction : SameOn _ (conjunction limits inner) (conjunction limits inner') :=
    (sameOn_negation hwhole hoperand).chain houter hmirrored.negation.moves
      mirrors_conjunctionSign.moves _
  exact hconjunction.chain houter hmirrored.conjunction.moves mirrors_disjunctionSign.moves _

end Levels

/-- Grammars for enough levels do the same. -/
theorem sameOn_ofLevels (limits : Limits) (few many : Nat) :
    SameOn (Cursor.Suffice limits.expressionDepth few many) (ofLevels limits few).whole
        (ofLevels limits many).whole ∧
      SameOn (Cursor.Suffice limits.expressionDepth few many) (ofLevels limits few).operand
        (ofLevels limits many).operand := by
  induction few generalizing many with
  | zero => exact ⟨fun _ hcursor => absurd hcursor.1 (Nat.lt_irrefl 0),
      fun _ hcursor => absurd hcursor.1 (Nat.lt_irrefl 0)⟩
  | succ few ih =>
    cases many with
    | zero => exact ⟨fun _ hcursor => absurd hcursor.2.1 (Nat.lt_irrefl 0),
        fun _ hcursor => absurd hcursor.2.1 (Nat.lt_irrefl 0)⟩
    | succ many =>
      obtain ⟨hwhole, hoperand⟩ := ih many
      exact ⟨sameOn_disjunction hwhole hoperand (Mirrored.ofLevels limits many),
        sameOn_negation hwhole hoperand⟩

def full (limits : Limits) : Grammar := ofLevels limits (limits.expressionDepth + 1)

/-! ## The recursion -/

/-- The parsers that call one another: one for the operands of each precedence, and one for each loop from
its state on. -/
inductive Rule
  | disjunction
  | disjunctionFrom (left : SearchExpression)
  | conjunction
  | conjunctionFrom (left : SearchExpression)
  | negation
  | primary

namespace Rule

abbrev Value : Rule → Type := fun _ => SearchExpression

/-- The tighter the precedence, the lower it stands. -/
def rung : Rule → Nat
  | disjunction => 4
  | conjunction => 3
  | conjunctionFrom _ => 2
  | negation => 1
  | disjunctionFrom _ | primary => 0

theorem rung_lt (rule : Rule) : rule.rung < 5 := by
  cases rule <;> simp only [rung] <;> omega

end Rule

section Recursion

variable (limits : Limits)

def called (calls : Family Rule.Value) : Grammar := ⟨calls .disjunction, calls .negation⟩

def body (calls : Family Rule.Value) : Family Rule.Value
  | .disjunction => do calls (.disjunctionFrom (← calls .conjunction))
  | .disjunctionFrom left =>
    iterateOnce (chainStep (calls .conjunction) disjunctionSign fun _ left right => .ok (.or left right))
      (fun left => calls (.disjunctionFrom left)) left
  | .conjunction => do calls (.conjunctionFrom (← calls .negation))
  | .conjunctionFrom left =>
    iterateOnce (chainStep (calls .negation) conjunctionSign fun _ left right => .ok (.and left right))
      (fun left => calls (.conjunctionFrom left)) left
  | .negation => negationOf limits (negated (called calls)) (calls .primary)
  | .primary => Grammar.primary limits (called calls)

def family : Family Rule.Value
  | .disjunction => disjunction limits (full limits)
  | .disjunctionFrom left =>
    iterate (chainStep (conjunction limits (full limits)) disjunctionSign
      fun _ left right => .ok (.or left right)) left
  | .conjunction => conjunction limits (full limits)
  | .conjunctionFrom left =>
    iterate (chainStep (negation limits (full limits)) conjunctionSign
      fun _ left right => .ok (.and left right)) left
  | .negation => negation limits (full limits)
  | .primary => Grammar.primary limits (full limits)

theorem mirrored_full : (full limits).Mirrored := Mirrored.ofLevels limits _

/-- The grammar refers back to itself. -/
theorem called_family : called (family limits) = full limits := by
  obtain ⟨hwhole, hoperand⟩ :=
    sameOn_ofLevels limits (limits.expressionDepth + 2) (limits.expressionDepth + 1)
  have hdisjunction : disjunction limits (full limits) = (full limits).whole :=
    funext fun cursor => hwhole (cursor.suffice_limit _)
  have hnegation : negation limits (full limits) = (full limits).operand :=
    funext fun cursor => hoperand (cursor.suffice_limit _)
  rw [called, family, family, hdisjunction, hnegation]

theorem consumes_conjunction : Consumes (conjunction limits (full limits)) :=
  (mirrored_full limits).consumes_negation.chain (mirrored_full limits).negation.moves
    mirrors_conjunctionSign.moves _

theorem consumes_disjunction : Consumes (disjunction limits (full limits)) :=
  (consumes_conjunction limits).chain (mirrored_full limits).conjunction.moves
    mirrors_disjunctionSign.moves _

/-- The parsers of the grammar do what the body says. -/
theorem body_family : body limits (family limits) = family limits := by
  have hcalled := called_family limits
  have hmirrored := mirrored_full limits
  funext rule
  cases rule with
  | disjunction | conjunction => rfl
  | disjunctionFrom left =>
    exact (iterate_eq_once (progresses_chainStep (consumes_conjunction limits)
      mirrors_disjunctionSign.moves _) left).symm
  | conjunctionFrom left =>
    exact (iterate_eq_once (progresses_chainStep hmirrored.consumes_negation
      mirrors_conjunctionSign.moves _) left).symm
  | negation =>
    exact congrArg (fun grammar => negationOf limits (negated grammar)
      (Grammar.primary limits (full limits))) hcalled
  | primary => exact congrArg (Grammar.primary limits) hcalled

/-- Every call for an operand is made behind a token or is one for a tighter precedence, and every round of a
loop is behind a token. -/
theorem descends_family : Descends Rule.rung (body limits) (family limits) := by
  apply descends_of_sameOn (body_family limits)
  intro calls rule start hbehind hlower
  have hinside := Cursor.inner_behind start 0
  have hmirrored := mirrored_full limits
  cases rule with
  | disjunction =>
    exact (hlower .conjunction (by decide)).bind_consumes hinside hmirrored.conjunction.moves
      (consumes_conjunction limits) fun left => hbehind (.disjunctionFrom left)
  | disjunctionFrom left =>
    have hmoves := mirrors_disjunctionSign.moves
    have hstep := SameOn.chainStep_progresses hinside hmoves progresses_disjunctionSign (hbehind .conjunction)
      (fun _ left right => .ok (.or left right)) left
    exact .iterateOnce hinside hstep (moves_chainStep hmirrored.conjunction.moves hmoves _ left)
      (progresses_chainStep (consumes_conjunction limits) hmoves _ left)
      fun left => hbehind (.disjunctionFrom left)
  | conjunction =>
    exact (hlower .negation (by decide)).bind_consumes hinside hmirrored.negation.moves
      hmirrored.consumes_negation fun left => hbehind (.conjunctionFrom left)
  | conjunctionFrom left =>
    have hmoves := mirrors_conjunctionSign.moves
    -- the operand may come without a word before it, so it has to stand on a lower rung
    have hoperand := hlower .negation Nat.one_lt_two
    have hstep := hoperand.chainStep hinside hmoves (fun _ left right => .ok (.and left right)) left
    exact .iterateOnce hinside hstep (moves_chainStep hmirrored.negation.moves hmoves _ left)
      (progresses_chainStep hmirrored.consumes_negation hmoves _ left)
      fun left => hbehind (.conjunctionFrom left)
  | negation =>
    have hnegated : SameOn _ (negated (called calls)) (negated (called (family limits))) :=
      sameOn_negated hinside (hbehind .negation)
    exact sameOn_negationOf hinside hnegated.nested_behind (hlower .primary (by decide))
  | primary =>
    have hgroup : SameOn _ (group (called calls)) (group (called (family limits))) :=
      sameOn_group hinside (hbehind .disjunction)
    exact sameOn_primary hinside hgroup.nested_behind

end Recursion

end SearchExpression.Grammar

end ODataOptions
