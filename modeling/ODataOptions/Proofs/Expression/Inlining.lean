import ODataOptions.Proofs.Expression.Soundness

/-!
# Literals in the place of parameter aliases

A parameter alias whose value is a single literal can be replaced by that literal.  An inlining says
for which aliases this is done, and acts on tokens and on trees.
-/

namespace ODataOptions

/-! ## Tokens that are literals -/

namespace Token

/-- The literal that a token is by itself: one of the literal kinds, or one of the words `null`, `true`
and `false` in any case. -/
def literal? (token : Token) : Option Literal :=
  if token.kind ∈ Expression.Grammar.literalKinds then (Literal.ofToken token).toOption
  else if token.isA .null then some .null
  else if token.isA .boolean then some (.boolean (Text.sameWord token.text "true"))
  else none

/-- The literal is told by the word. -/
theorem literal?_congr {token token' : Token} (hword : token.word = token'.word) :
    token.literal? = token'.literal? := by
  obtain ⟨kind, text, span⟩ := token
  obtain ⟨kind', text', span'⟩ := token'
  cases hword
  have hvalue : (Literal.ofToken ⟨kind, text, span⟩).toOption =
      (Literal.ofToken ⟨kind, text, span'⟩).toOption := by
    cases kind with
    | integer =>
      simp only [Literal.ofToken]
      split <;> rfl
    | _ => rfl
  rw [literal?, literal?, hvalue]
  rfl

variable {token : Token}

theorem isA_null_iff :
    token.isA .null = true ↔
      token.kind = .identifier ∧ Text.sameWord token.text "null" = true := by
  simp [isA, TokenKind.contextualWords?]

theorem isA_boolean_iff :
    token.isA .boolean = true ↔ token.kind = .identifier ∧
      (Text.sameWord token.text "true" = true ∨ Text.sameWord token.text "false" = true) := by
  simp [isA, TokenKind.contextualWords?]

theorem isA_boolean_eq_false_of_null (hnull : token.isA .null = true) :
    token.isA .boolean = false := by
  obtain ⟨-, hword⟩ := isA_null_iff.mp hnull
  have hfolded : Text.folded token.text = Text.folded "null" := of_decide_eq_true hword
  rw [Bool.eq_false_iff, Ne, isA_boolean_iff]
  rintro ⟨-, htrue | hfalse⟩
  · exact absurd (hfolded.symm.trans (of_decide_eq_true htrue)) (by decide)
  · exact absurd (hfolded.symm.trans (of_decide_eq_true hfalse)) (by decide)

/-- An identifier that is a literal is one of the constants. -/
theorem isConstantName_of_literal? {value : Literal} (hvalue : token.literal? = some value)
    (hkind : token.kind = .identifier) : isConstantName token.text = true := by
  have hname : isConstantName token.text = (token.isA .null || token.isA .boolean) := by
    rw [isConstantName, ← hkind]
    rfl
  have hliteral : token.kind ∉ Expression.Grammar.literalKinds := by
    rw [hkind]
    decide
  rw [hname]
  rw [literal?, if_neg hliteral] at hvalue
  split at hvalue
  · next hnull => simp [hnull]
  · split at hvalue
    · next hboolean => simp [hboolean]
    · cases hvalue

theorem kind_mem_of_literal? {value : Literal} (hvalue : token.literal? = some value) :
    token.kind ∈ .identifier :: Expression.Grammar.literalKinds := by
  rw [literal?] at hvalue
  split at hvalue
  · next hkind => exact List.mem_cons_of_mem _ hkind
  · split at hvalue
    · next hnull => exact (isA_null_iff.mp hnull).1 ▸ List.mem_cons_self
    · split at hvalue
      · next hboolean => exact (isA_boolean_iff.mp hboolean).1 ▸ List.mem_cons_self
      · cases hvalue

end Token

namespace Expression.Grammar

variable {scope : Scope} {owner : StructuredType} {inner : Grammar} {cursor : Cursor}

/-- The kind of the current token decides what an operand is. -/
theorem primary_run (cursor : Cursor) :
    primary scope owner inner cursor =
      match cursor.current.kind with
      | .openParen => Parser.nested scope.limits.expressionDepth (group inner) cursor
      | .integer | .decimal | .string | .date | .dateTimeOffset | .guid => literal cursor
      | .parameterAlias => parameter scope cursor
      | .identifier => named scope owner inner cursor
      | _ => Parser.unexpected "expression" cursor := by
  rw [primary, Parser.bind_run, Parser.current_run]
  dsimp only
  cases cursor.current.kind <;> rfl

theorem parameter_run (cursor : Cursor) :
    parameter scope cursor =
      .ok ⟨.parameter (parameterName cursor.current.text),
        scope.parameterType (parameterName cursor.current.text), cursor.current.span⟩
        cursor.advance := by
  rw [parameter, Parser.bind_run, Parser.next_run]
  rfl

theorem primary_eq_literal (hkind : cursor.current.kind ∈ literalKinds) :
    primary scope owner inner cursor = literal cursor := by
  simp only [literalKinds, List.mem_cons, List.not_mem_nil, or_false] at hkind
  rcases hkind with hkind | hkind | hkind | hkind | hkind | hkind <;> rw [primary_run, hkind]

/-- A token that is a literal is read as that literal, whatever follows. -/
theorem primary_of_literal {value : Literal} (hvalue : cursor.current.literal? = some value) :
    primary scope owner inner cursor =
      .ok ⟨.literal value, .ofToken cursor.current, cursor.current.span⟩ cursor.advance := by
  rw [Token.literal?] at hvalue
  split at hvalue
  · next hkind =>
    rw [primary_eq_literal hkind, literal_run]
    cases hread : Literal.ofToken cursor.current with
    | error => simp [hread, Except.toOption] at hvalue
    | ok read =>
      rw [hread] at hvalue
      cases hvalue
      rfl
  · split at hvalue
    · next hnull =>
      cases hvalue
      have hkind := (Token.isA_null_iff.mp hnull).1
      have htype : ExpressionType.ofToken cursor.current = .untyped := by
        simp [ExpressionType.ofToken, hkind, Token.isA_boolean_eq_false_of_null hnull]
      rw [primary_run, hkind, htype]
      dsimp only
      rw [named_run, if_pos hnull]
    · next hnull =>
      split at hvalue
      · next hboolean =>
        cases hvalue
        have hkind := (Token.isA_boolean_iff.mp hboolean).1
        have htype : ExpressionType.ofToken cursor.current = .boolean := by
          simp [ExpressionType.ofToken, hkind, hboolean]
        rw [primary_run, hkind, htype]
        dsimp only
        rw [named_run, if_neg hnull, if_pos hboolean]
      · cases hvalue

end Expression.Grammar

/-! ## Replacing aliases -/

/-- Some parameter aliases of a scope, each with the one literal token that its value is. -/
structure Inlining (scope : Scope) where
  token? : String → Option Token
  sound : ∀ {name token}, token? name = some token →
    ∃ definition, scope.aliases.find? name = some definition ∧
      lexemes definition.value = [.token token] ∧ token.literal?.isSome = true

namespace Inlining

variable {scope : Scope} (inlining : Inlining scope) {name : String} {token : Token}

def empty : Inlining scope := ⟨fun _ => none, nofun⟩

instance : EmptyCollection (Inlining scope) := ⟨empty⟩

def literal? (name : String) : Option Literal := (inlining.token? name).bind Token.literal?

/-- What an inlining does to a token. -/
def apply (token : Token) : Token :=
  if token.kind = .parameterAlias then (inlining.token? (parameterName token.text)).getD token
  else token

theorem apply_empty (token : Token) : (∅ : Inlining scope).apply token = token := by
  rw [apply]
  split <;> rfl

variable {inlining}

theorem exists_literal (htoken : inlining.token? name = some token) :
    ∃ value, token.literal? = some value ∧ inlining.literal? name = some value := by
  obtain ⟨_, -, -, hliteral⟩ := inlining.sound htoken
  obtain ⟨value, hvalue⟩ := Option.isSome_iff_exists.mp hliteral
  exact ⟨value, hvalue, by rw [literal?, htoken, Option.bind_some, hvalue]⟩

/-- An alias has the class of the literal that it is replaced by. -/
theorem parameterType_eq (htoken : inlining.token? name = some token) :
    scope.parameterType name = .ofToken token := by
  obtain ⟨definition, hfound, hlexemes, -⟩ := inlining.sound htoken
  simp [Scope.parameterType, hfound, hlexemes]

end Inlining

namespace Expression

variable (literal? : String → Option Literal)

mutual

/-- The expression with some of its parameter aliases replaced by literals. -/
def withLiterals : Expression → Expression
  | .literal value => .literal value
  | .member path => .member path
  | .parameter name => ((literal? name).map literal).getD (.parameter name)
  | .not operand => .not (withLiterals operand)
  | .binary operator left right => .binary operator (withLiterals left) (withLiterals right)
  | .call method arguments => .call method (allWithLiterals arguments)

def allWithLiterals : List Expression → List Expression
  | [] => []
  | expression :: expressions => withLiterals expression :: allWithLiterals expressions

end

theorem allWithLiterals_eq_map (expressions : List Expression) :
    allWithLiterals literal? expressions = expressions.map (withLiterals literal?) := by
  induction expressions with
  | nil => rfl
  | cons expression expressions ih => rw [allWithLiterals, ih, List.map_cons]

mutual

/-- Without any literals nothing is replaced. -/
theorem withLiterals_none (expression : Expression) :
    withLiterals (fun _ => none) expression = expression := by
  match expression with
  | .literal _ | .member _ | .parameter _ => rfl
  | .not operand => rw [withLiterals, withLiterals_none operand]
  | .binary operator left right =>
    rw [withLiterals, withLiterals_none left, withLiterals_none right]
  | .call method arguments => rw [withLiterals, allWithLiterals_none arguments]

theorem allWithLiterals_none (expressions : List Expression) :
    allWithLiterals (fun _ => none) expressions = expressions := by
  match expressions with
  | [] => rfl
  | expression :: expressions =>
    rw [allWithLiterals, withLiterals_none expression, allWithLiterals_none expressions]

end

end Expression

end ODataOptions
