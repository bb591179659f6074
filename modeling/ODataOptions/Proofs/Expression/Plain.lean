import ODataOptions.Proofs.Expression.Soundness

/-!
# No path that looks like a negation is parsed by itself

A word `not` where a whole expression begins is read as a negation, so a path that begins with a
member of that name is never the whole expression.
-/

namespace ODataOptions

open ODataOptions.Parser

namespace Expression.Grammar

/-- From the cursor, no path that looks like a negation is yielded. -/
def PlainAt (parser : Parser TypedExpression) (cursor : Cursor) : Prop :=
  ∀ typed rest, parser cursor = .ok typed rest → ¬ typed.expression.LooksNegated

variable {scope : Scope} {owner : StructuredType} {inner : Grammar} {cursor : Cursor}

theorem plain_binary {operator : BinaryOperator} {left right typed : TypedExpression}
    (hbinary : TypedExpression.binary operator left right = .ok typed) :
    ¬ typed.expression.LooksNegated := by
  obtain ⟨type, _, hresult⟩ := Fault.bind_eq_ok_iff.mp hbinary
  cases hresult
  exact id

/-- An operation does not look negated, and neither does its first operand here. -/
theorem PlainAt.operations {operand : Parser TypedExpression} (hoperand : PlainAt operand cursor)
    (operators : List BinaryOperator) : PlainAt (operations operators operand) cursor := by
  intro typed rest hrun
  obtain ⟨left, middle, hleft, hloop⟩ := bind_eq_ok_iff.mp hrun
  apply (yields_iterate (I := fun typed : TypedExpression => ¬ typed.expression.LooksNegated) _
    (hoperand _ _ hleft) middle.over_univ hloop).1
  intro left _
  apply (yields_oneOfWords _ _).bind
  intro found _
  cases found with
  | none => exact .pure (by simp)
  | some operator =>
    apply (yields_any operand).bind
    intro right _
    apply (yields_ofExcept fun _ hvalue => plain_binary hvalue).map
    intro value hvalue
    exact fun next hnext => Option.mem_some.mp hnext ▸ hvalue

theorem PlainAt.comparison (hadditive : PlainAt (additive scope owner inner) cursor) :
    PlainAt (comparison scope owner inner) cursor := by
  intro typed rest hrun
  obtain ⟨left, middle, hleft, hrest⟩ := bind_eq_ok_iff.mp hrun
  obtain ⟨found, behind, _, hrest⟩ := bind_eq_ok_iff.mp hrest
  cases found with
  | none =>
    cases hrest
    exact hadditive _ _ hleft
  | some operator =>
    obtain ⟨right, _, _, hbinary⟩ := bind_eq_ok_iff.mp hrest
    exact (yields_ofExcept (fun _ hvalue => plain_binary hvalue) (Cursor.over_univ _) hbinary).1

theorem yields_methodCall :
    Yields (fun _ => True) (methodCall inner) fun typed => ¬ typed.expression.LooksNegated := by
  apply yields_current.bind
  intro name _
  split
  · exact yields_throw _
  · next method _ =>
    apply (yields_expect (by decide)).bind
    intro _ _
    apply (yields_expect (by decide)).bind
    intro _ _
    apply (yields_any _).bind
    intro arguments _
    apply (yields_expect (by decide)).bind
    intro _ _
    apply yields_ofExcept
    intro typed hcall
    rw [TypedExpression.call] at hcall
    split at hcall
    · obtain ⟨_, _, hresult⟩ := Fault.bind_eq_ok_iff.mp hcall
      cases hresult
      exact id
    · cases hcall

theorem plainAt_named (hnot : cursor.current.isWord "not" = false) :
    PlainAt (named scope owner inner) cursor := by
  intro typed rest hrun
  rw [named_run] at hrun
  split at hrun
  · cases hrun
    exact id
  · split at hrun
    · cases hrun
      exact id
    · split at hrun
      · exact (yields_methodCall.nested _ cursor.over_univ hrun).1
      · rw [memberPath_run] at hrun
        split at hrun
        · next path middle hpath =>
          cases hrun
          obtain ⟨result, _, hstep, hhead⟩ := head?_unfold hpath
          obtain ⟨hkind, hname⟩ := memberSegment_name hstep
          obtain ⟨tail, rfl⟩ := List.head?_eq_some_iff.mp hhead
          intro hlooks
          have htext : cursor.current.text = "not" := hname.symm.trans hlooks
          simp [Token.isWord, hkind, htext] at hnot
        · cases hrun

theorem plainAt_primary (hwhole : ∀ cursor, PlainAt inner.whole cursor)
    (hnot : cursor.current.isWord "not" = false) : PlainAt (primary scope owner inner) cursor := by
  intro typed rest hrun
  rw [primary, bind_run, current_run] at hrun
  cases hkind : cursor.current.kind <;> simp only [hkind] at hrun
  case openParen =>
    have hgroup : Yields (fun _ => True) (group inner) fun typed =>
        ¬ typed.expression.LooksNegated := by
      apply (yields_expect (by decide)).bind
      intro _ _
      have hcontents : Yields (fun _ => True) inner.whole fun typed =>
          ¬ typed.expression.LooksNegated := by
        intro cursor typed rest _ hrun
        exact ⟨hwhole cursor typed rest hrun, rest.over_univ⟩
      apply hcontents.bind
      intro _ hcontent
      exact (yields_expect (by decide)).map fun _ _ => hcontent
    exact (hgroup.nested _ cursor.over_univ hrun).1
  case identifier => exact plainAt_named hnot _ _ hrun
  case parameterAlias =>
    rw [Grammar.parameter, bind_run, next_run] at hrun
    cases hrun
    exact id
  case integer | decimal | string | date | dateTimeOffset | guid =>
    rw [literal_run] at hrun
    split at hrun
    · cases hrun
      exact id
    · cases hrun
  all_goals cases hrun

theorem plainAt_negation (hwhole : ∀ cursor, PlainAt inner.whole cursor) :
    PlainAt (negation scope owner inner) cursor := by
  intro typed rest hrun
  rw [Grammar.negation, bind_run, current_run] at hrun
  cases hnot : cursor.current.isWord "not" with
  | true =>
    simp only [hnot, if_true] at hrun
    have hnegated : Yields (fun _ => True) (negated inner) fun typed =>
        ¬ typed.expression.LooksNegated := by
      apply (yields_expect (by decide)).bind
      intro _ _
      apply (yields_any _).bind
      intro operand _
      exact (yields_any _).map fun _ _ => id
    exact (hnegated.nested _ cursor.over_univ hrun).1
  | false =>
    simp only [hnot, Bool.false_eq_true, if_false] at hrun
    exact (((plainAt_primary hwhole hnot).operations _).operations _).comparison _ _ hrun

theorem plainAt_ofLevels (scope : Scope) (owner : StructuredType) (levels : Nat) (cursor : Cursor) :
    PlainAt (ofLevels scope owner levels).whole cursor := by
  induction levels generalizing cursor with
  | zero =>
    intro typed rest hrun
    cases hrun
  | succ levels ih => exact ((plainAt_negation ih).operations _).operations _

end Expression.Grammar

end ODataOptions
