import ODataOptions.Proofs.Expression.Tracks

/-!
# Parameter aliases stand for their literals

An expression with a parameter alias is accepted exactly where the expression with the literal of that
alias is, and with the same class.  Only an alias for `null`, `true` or `false` can stand in fewer
places than its literal, since these words may be names as well.
-/

namespace ODataOptions

namespace Inlining

variable {scope : Scope} (inlining : Inlining scope)

/-- No alias is replaced by the end of the input. -/
theorem apply_kind_eq_endOfInput_iff (token : Token) :
    (inlining.apply token).kind = .endOfInput ↔ token.kind = .endOfInput := by
  rw [apply]
  split
  · next halias =>
    cases hfound : inlining.token? (parameterName token.text) with
    | none => rfl
    | some found =>
      obtain ⟨value, hvalue, -⟩ := exists_literal hfound
      have hliteral : ∀ kind ∈ .identifier :: Expression.Grammar.literalKinds,
          kind ≠ .endOfInput := by decide
      have hne := hliteral _ (Token.kind_mem_of_literal? hvalue)
      simp [hne, halias]
  · rfl

/-- Both runs resolve names in the same scope, and the second one has the literals. -/
def comparison : ScopedComparison where
  strict := ∀ {name token}, inlining.token? name = some token → token.kind ≠ .identifier
  Tokens token token' := (inlining.apply token).word = token'.word
  Places _ _ := True
  span _ := trivial
  cover _ _ := trivial
  endOfInput_iff {token token'} htoken := by
    rw [← inlining.apply_kind_eq_endOfInput_iff token, ← Token.word_kind, htoken, Token.word_kind]
  scope := scope
  aliases' := scope.aliases
  inlining := inlining
  gradual := False
  respells htoken := htoken ▸ .refl _
  parameterType := scope.parameterType_kept False
  strict_inlining hstrict := hstrict
  strict_gradual _ := id

/-- At the start of both token lists, the cursors correspond. -/
theorem comparison_cursors {tokens tokens' : List Token}
    (hwords : tokens'.map Token.word = tokens.map fun token => (inlining.apply token).word) :
    inlining.comparison.Cursors (.ofTokens tokens) (.ofTokens tokens') := by
  refine ⟨.nil, ?_, rfl, rfl⟩
  have hsame : List.Forall₂ Eq (tokens.map fun token => (inlining.apply token).word)
      (tokens'.map Token.word) := by
    rw [hwords, List.forall₂_eq_eq_eq]
  rwa [List.forall₂_map_left_iff, List.forall₂_map_right_iff] at hsame

end Inlining

/-- An alias stands for its literal.  Where an expression is accepted, it is accepted too with the
literals in the place of some aliases, with the same class and as the tree that has the literals.
Unless one of them is `null`, `true` or `false`, the converse holds as well. -/
theorem Expression.parse_inlined (scope : Scope) (inlining : Inlining scope) (owner : StructuredType)
    {tokens tokens' : List Token}
    (hwords : tokens'.map Token.word = tokens.map fun token => (inlining.apply token).word) :
    (∀ typed rest, (Expression.parse scope owner).run (.ofTokens tokens) = .ok typed rest →
      ∃ typed' rest', (Expression.parse scope owner).run (.ofTokens tokens') = .ok typed' rest' ∧
        typed'.type = typed.type ∧
        typed'.expression = typed.expression.withLiterals inlining.literal? ∧
        rest'.position = rest.position) ∧
    ((∀ name token, inlining.token? name = some token → token.kind ≠ .identifier) →
      ∀ typed' rest', (Expression.parse scope owner).run (.ofTokens tokens') = .ok typed' rest' →
        ∃ typed rest, (Expression.parse scope owner).run (.ofTokens tokens) = .ok typed rest ∧
          typed.type = typed'.type ∧
          typed'.expression = typed.expression.withLiterals inlining.literal? ∧
          rest.position = rest'.position) := by
  have htracks := ScopedComparison.tracks_parse owner (inlining.comparison_cursors hwords)
  -- a class is lost in a gradual comparison only
  have htype : ∀ {typed typed' : TypedExpression}, inlining.comparison.Typed typed typed' →
      typed'.type = typed.type :=
    fun htyped => htyped.type.resolve_right And.left
  constructor
  · intro typed rest hrun
    obtain ⟨typed', rest', hrun', htyped, hrest⟩ := htracks.exists_of_ok hrun
    exact ⟨typed', rest', hrun', htype htyped, htyped.expression, hrest.position.symm⟩
  · intro hplain typed' rest' hrun'
    obtain ⟨typed, rest, hrun, htyped, hrest⟩ :=
      htracks.exists_of_ok_right (fun {_ _} => hplain _ _) hrun'
    exact ⟨typed, rest, hrun, (htype htyped).symm, htyped.expression, hrest.position⟩

def Scope.shopAges : Scope where
  schema := .shop
  aliases := .ofList [⟨"limit", "18"⟩]

def Inlining.shopAges : Inlining .shopAges where
  token? name := if name = "limit" then some ⟨.integer, "18", ⟨0, 2⟩⟩ else none
  sound := by
    intro name token htoken
    split at htoken
    · next hname =>
      cases htoken
      exact ⟨⟨"limit", "18"⟩, by rw [hname]; decide, by decide, by decide⟩
    · cases htoken

/-- An age beyond a parameter is the same as one beyond its value. -/
theorem Expression.parse_inlined_shop :
    (tokens "Age gt 18").map Token.word =
        (tokens "Age gt @limit").map (fun token => (Inlining.shopAges.apply token).word) ∧
      (∃ typed rest, (Expression.parse .shopAges .shopCustomer).run
          (.ofTokens (tokens "Age gt 18")) = .ok typed rest ∧
        typed.type = .boolean ∧ typed.expression =
          .binary .gt (.member [.property .shopAge]) (.literal (.integer 18))) ∧
      ∃ typed rest, (Expression.parse .shopAges .shopCustomer).run
          (.ofTokens (tokens "Age gt @limit")) = .ok typed rest ∧ typed.type = .boolean := by
  have hwords : (tokens "Age gt 18").map Token.word =
      (tokens "Age gt @limit").map fun token => (Inlining.shopAges.apply token).word := by decide
  have hplain : ∀ name token, Inlining.shopAges.token? name = some token →
      token.kind ≠ .identifier := by
    intro name token htoken
    rw [Inlining.shopAges] at htoken
    dsimp only at htoken
    split at htoken
    · cases htoken
      decide
    · cases htoken
  obtain ⟨hforth, hback⟩ := Expression.parse_inlined .shopAges .shopAges .shopCustomer hwords
  obtain ⟨typed', rest', hrun', htype, htree, -⟩ := hforth _ _ rfl
  obtain ⟨typed, rest, hrun, hback, -⟩ := hback hplain _ _ hrun'
  exact ⟨hwords, ⟨typed', rest', hrun', htype, htree⟩, typed, rest, hrun, hback.trans htype⟩

end ODataOptions
