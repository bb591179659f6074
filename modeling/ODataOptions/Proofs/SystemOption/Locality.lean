import ODataOptions.Proofs.Expand.Mirrors
import ODataOptions.Proofs.Parser.Stretches

/-!
# Values are parsed within their bounds

A value ends before a semicolon, a closing parenthesis or the end of the input.  Where a parser of values
stops there, nothing behind it had a part in the value: the tokens from the stop on may be exchanged for any
others that begin with one of the three, and the parser yields the same value and stops at the same place.
-/

namespace ODataOptions

open ODataOptions.Parser

namespace Cursor

variable {cursor cursor' stop : Cursor} {other : List Token}

theorem drop_position_tokens (cursor : Cursor) :
    cursor.tokens.drop cursor.position = cursor.ahead := by
  rw [tokens, position, ← List.length_reverse, List.drop_left]

theorem current_of_getElem? {token : Token} (htoken : cursor.tokens[cursor.position]? = some token) :
    cursor.current = token := by
  rw [← List.head?_drop, drop_position_tokens] at htoken
  rw [current]
  cases hahead : cursor.ahead with
  | nil =>
    rw [hahead] at htoken
    cases htoken
  | cons first ahead =>
    rw [hahead] at htoken
    exact Option.some.inj htoken

/-- The cursor stands at the same position, as many levels are open, and from `position` on there are other
tokens. -/
structure ExchangedFrom (position : Nat) (other : List Token) (cursor cursor' : Cursor) : Prop where
  tokens_eq : cursor'.tokens = cursor.tokens.take position ++ other
  position_eq : cursor'.position = cursor.position
  depth_eq : cursor'.depth = cursor.depth

/-- At the position itself, the other tokens are ahead. -/
theorem ExchangedFrom.ahead_eq (hexchanged : ExchangedFrom cursor.position other cursor cursor') :
    cursor'.ahead = other := by
  have hlength : (cursor.tokens.take cursor.position).length = cursor.position := by
    rw [List.length_take, length_tokens]
    omega
  rw [← drop_position_tokens, hexchanged.tokens_eq, hexchanged.position_eq]
  exact List.drop_left' hlength

section Before

variable {position : Nat} (hexchanged : ExchangedFrom position other cursor cursor')
  (hkind : cursor.current.kind ≠ .endOfInput) (hlt : cursor.position < position)

include hexchanged hkind hlt

/-- Before the position, the current token is the same one. -/
theorem ExchangedFrom.current_eq : cursor'.current = cursor.current := by
  have htoken := getElem?_position hkind
  apply current_of_getElem?
  have hlength : cursor.position < (cursor.tokens.take position).length := by
    have hbound := (List.getElem?_eq_some_iff.mp htoken).1
    rw [List.length_take]
    omega
  rw [hexchanged.tokens_eq, hexchanged.position_eq, List.getElem?_append_left hlength,
    List.getElem?_take_of_lt hlt, htoken]

theorem ExchangedFrom.advance : ExchangedFrom position other cursor.advance cursor'.advance := by
  have hkind' : cursor'.current.kind ≠ .endOfInput := by
    rwa [hexchanged.current_eq hkind hlt]
  refine ⟨?_, ?_, ?_⟩
  · rw [tokens_advance, tokens_advance, hexchanged.tokens_eq]
  · rw [position_advance hkind, position_advance hkind', hexchanged.position_eq]
  · rw [depth_advance, depth_advance, hexchanged.depth_eq]

end Before

/-- The words before the position are passed all the same. -/
theorem Passes.exchangedFrom {words : List Word} (hpasses : cursor.Passes words stop)
    (hexchanged : ExchangedFrom stop.position other cursor cursor') :
    ∃ stop', cursor'.Passes words stop' ∧ ExchangedFrom stop.position other stop stop' := by
  induction hpasses generalizing cursor' with
  | nil => exact ⟨cursor', .nil cursor', hexchanged⟩
  | @cons cursor stop word words hword hkind hrest ih =>
    have hcurrent : cursor.current.kind ≠ .endOfInput := by
      rwa [← hword, Token.word_kind] at hkind
    have hlt : cursor.position < stop.position := by
      rw [hrest.position_eq, position_advance hcurrent]
      omega
    obtain ⟨stop', hpasses', hstop⟩ := ih (hexchanged.advance hcurrent hlt)
    refine ⟨stop', .cons ?_ hkind hpasses', hstop⟩
    rw [hexchanged.current_eq hcurrent hlt, hword]

end Cursor

namespace Parser

variable {α : Type} {parser : Parser α}

/-- Where the parser stops at the end of a value, what stands from there on may be exchanged for anything
else that a value may end before.  It yields the same value and stops at the same position. -/
def StaysWithin (parser : Parser α) : Prop :=
  ∀ ⦃cursor stop : Cursor⦄ ⦃value : α⦄, parser cursor = .ok value stop →
    stop.current.word.EndsValue →
      ∀ ⦃other : List Token⦄ ⦃cursor' : Cursor⦄, (Cursor.ofTokens other).current.word.EndsValue →
        Cursor.ExchangedFrom stop.position other cursor cursor' →
          ∃ stop', parser cursor' = .ok value stop' ∧
            Cursor.ExchangedFrom stop.position other stop stop'

/-- A parser that does not look beyond the end of its value does not depend on what is there. -/
theorem Mirrors.staysWithin (hparser : Mirrors .value id parser parser) : StaysWithin parser := by
  intro cursor stop value hrun hends other cursor' hother hexchanged
  obtain ⟨words, hwords⟩ := hparser.moves.passes hrun
  obtain ⟨stop', hwords', hstop⟩ := hwords.exchangedFrom hexchanged
  have hends' : stop'.current.word.EndsValue := by
    rw [Cursor.current, hstop.ahead_eq]
    cases other with
    | nil => exact .of_endOfInput rfl
    | cons => exact hother
  have hreads := hparser.reads hrun hwords hends
  obtain ⟨value', hrun', rfl⟩ := (hreads hexchanged.depth_eq hwords' hends').1 trivial
  exact ⟨stop', hrun', hstop⟩

/-- A parser of items of lists is one of values. -/
theorem Mirrors.staysWithin_item (hparser : Mirrors .item id parser parser) : StaysWithin parser :=
  (hparser.narrow (by decide)).staysWithin

end Parser

/-- Every parser of values stays within the value, at every level of an expansion. -/
theorem staysWithin_values (scope : Scope) (owner : StructuredType) :
    StaysWithin (Expression.parseFilter scope owner) ∧
    StaysWithin (OrderBy.parse scope owner) ∧
    StaysWithin (SearchExpression.parse scope.limits) ∧
    StaysWithin (Select.parse scope.schema owner) ∧
    (∀ levels, StaysWithin (Expand.parseWithin scope levels owner)) ∧
    StaysWithin Levels.parse ∧
    (∀ option zeroAllowed, StaysWithin (wholeNumber option zeroAllowed)) ∧
    StaysWithin truthValue :=
  ⟨(Expression.mirrors_parseFilter scope owner).staysWithin_item,
    (OrderBy.mirrors_parse scope owner).staysWithin,
    (SearchExpression.mirrors_parse scope.limits).staysWithin,
    (Select.mirrors_parse scope.schema owner).staysWithin,
    fun levels => (Expand.mirrors_parseWithin scope levels owner).staysWithin,
    Levels.mirrors_parse.staysWithin_item,
    fun option zeroAllowed => (mirrors_wholeNumber option zeroAllowed).staysWithin_item,
    mirrors_truthValue.staysWithin_item⟩

/-- An expansion with options of its own, which ends before a semicolon here and before a closing
parenthesis there. -/
theorem staysWithin_values_shop :
    ∃ expand stop stop',
      Expand.parseWithin { schema := .shop } 1 .shopCustomer
          (.ofTokens (tokens "Orders($skip=1;$top=2);$count=x")) = .ok expand stop ∧
      stop.current.word.EndsValue ∧
      Expand.parseWithin { schema := .shop } 1 .shopCustomer
          (.ofTokens ((tokens "Orders($skip=1;$top=2);$count=x").take stop.position ++
            tokens ") /")) = .ok expand stop' ∧
      stop'.position = stop.position := by
  obtain ⟨-, -, -, -, hexpand, -⟩ := staysWithin_values { schema := .shop } .shopCustomer
  have hends : ∀ kind, kind ∈ [TokenKind.semicolon, .closeParen, .endOfInput] →
      ∀ token : Token, token.kind = kind → token.word.EndsValue := by
    rintro kind hkind token rfl
    exact hkind
  obtain ⟨expand, stop, hrun, hstop⟩ : ∃ expand stop,
      Expand.parseWithin { schema := .shop } 1 .shopCustomer
          (.ofTokens (tokens "Orders($skip=1;$top=2);$count=x")) = .ok expand stop ∧
      stop.current.word.EndsValue :=
    ⟨_, _, rfl, hends .semicolon (by decide) _ (by decide +kernel)⟩
  have hexchanged : Cursor.ExchangedFrom stop.position (tokens ") /")
      (.ofTokens (tokens "Orders($skip=1;$top=2);$count=x"))
      (.ofTokens ((tokens "Orders($skip=1;$top=2);$count=x").take stop.position ++ tokens ") /")) :=
    ⟨rfl, rfl, rfl⟩
  have hother : (Cursor.ofTokens (tokens ") /")).current.word.EndsValue :=
    hends .closeParen (by decide) _ (by decide +kernel)
  obtain ⟨stop', hrun', hstop'⟩ := hexpand 1 hrun hstop hother hexchanged
  exact ⟨expand, stop, stop', hrun, hstop, hrun', hstop'.position_eq⟩

end ODataOptions
