import ODataOptions.Proofs.Expand.Soundness
import ODataOptions.Proofs.Expression.Mirrors
import ODataOptions.Proofs.Search.Mirrors
import ODataOptions.Proofs.Select.Mirrors

/-!
# The values of options do not depend on what follows

The value of an option that ends before a semicolon, a closing parenthesis or the end of the input is
parsed alike before each of them, whatever its kind.  An item of an expansion may end before a comma too.
-/

namespace ODataOptions

open ODataOptions.Parser

/-! ## Simple values -/

theorem Parser.mirrors_wholeNumber (option : String) (zeroAllowed : Bool) :
    Mirrors .item id (wholeNumber option zeroAllowed) (wholeNumber option zeroAllowed) := by
  apply (mirrors_expect (by decide)).bind
  intro token token' hword
  have htext : token.text = token'.text := congrArg Word.text hword
  rw [htext]
  split
  · exact mirrors_pure rfl
  · exact mirrors_throw _

theorem Parser.mirrors_truthValue : Mirrors .item id truthValue truthValue := by
  apply (mirrors_expect (by decide)).map
  intro token token' hword
  rw [show token.text = token'.text from congrArg Word.text hword]

theorem Levels.mirrors_parse : Mirrors .item id Levels.parse Levels.parse := by
  apply (mirrors_accept (by decide)).bind_bool
  · exact mirrors_pure rfl
  · apply (mirrors_wholeNumber _ _).bind_id
    intro _
    exact mirrors_pure rfl

/-- No value of an option looks beyond the word that ends it. -/
theorem SystemOption.mirrors_parseValue {Expansion : Type} (scope : Scope)
    {expansion : StructuredType → Parser Expansion}
    (hexpansion : ∀ owner, Mirrors .value id (expansion owner) (expansion owner))
    (owner : StructuredType) (kind : OptionKind) :
    Mirrors .value id (SystemOption.parseValue scope expansion owner kind)
      (SystemOption.parseValue scope expansion owner kind) := by
  cases kind with
  | count => exact (mirrors_truthValue.narrow (by decide)).bind_id fun _ => mirrors_pure rfl
  | expand => exact (hexpansion owner).bind_id fun _ => mirrors_pure rfl
  | filter =>
    apply ((Expression.mirrors_parseFilter scope owner).narrow (by decide)).bind_id
    intro _
    exact mirrors_pure rfl
  | levels => exact (Levels.mirrors_parse.narrow (by decide)).bind_id fun _ => mirrors_pure rfl
  | orderBy => exact (OrderBy.mirrors_parse scope owner).bind_id fun _ => mirrors_pure rfl
  | search => exact (SearchExpression.mirrors_parse scope.limits).bind_id fun _ => mirrors_pure rfl
  | select => exact (Select.mirrors_parse scope.schema owner).bind_id fun _ => mirrors_pure rfl
  | skip | top =>
    apply ((mirrors_wholeNumber _ _).narrow (by decide)).bind_id
    intro _
    exact mirrors_pure rfl

/-! ## Options in parentheses -/

namespace OptionSet

/-- What a token names is said by its word. -/
theorem allowedKind?_congr {token token' : Token} (hword : token.word = token'.word)
    (context : OptionContext) : allowedKind? context token = allowedKind? context token' := by
  rw [allowedKind?, allowedKind?, show token.kind = token'.kind from congrArg Word.kind hword]

variable {Expansion : Type} {value : OptionKind → Parser (SystemOption Expansion)}
  (hvalue : ∀ kind, Mirrors .value id (value kind) (value kind)) (context : OptionContext)

include hvalue

/-- Of what has been gathered, an option depends on the set alone. -/
theorem mirrors_parseOption {gathered gathered' : Gathered Expansion}
    (hsame : gathered.options = gathered'.options) :
    Mirrors .inside Gathered.options (parseOption value context gathered)
      (parseOption value context gathered') := by
  apply mirrors_current
  · intro keyword keyword' hword
    rw [← allowedKind?_congr hword]
    cases allowedKind? context keyword with
    | none => exact mirrors_failHere _
    | some kind =>
      apply mirrors_next.bind
      intro _ _ _
      apply (mirrors_expect (by decide)).bind
      intro _ _ _
      apply ((hvalue kind).narrow (List.nil_subset _)).bind_id
      intro option
      rw [hsame]
      cases gathered'.options.insert option with
      | ok options => exact mirrors_pure rfl
      | error _ => exact mirrors_throw _
  · intro _ _ hends
    cases hends

theorem consumes_parseOption (gathered : Gathered Expansion) :
    Consumes (parseOption value context gathered) := by
  apply moves_current.bind_consumes
  intro keyword
  split
  · exact consumes_failHere _
  · apply moves_next.bind_consumes
    intro _
    apply (consumes_expect (by decide)).bind
    intro _
    apply (hvalue _).moves.bind
    intro option
    split
    · exact moves_pure _
    · exact moves_throw _

theorem mirrors_parse :
    Mirrors .item id (OptionSet.parse value context) (OptionSet.parse value context) := by
  apply (mirrors_accept (by decide)).bind_bool
  · have hlist : Mirrors .inside Gathered.options
        (separatedFrom (parseOption value context) .semicolon {})
        (separatedFrom (parseOption value context) .semicolon {}) := by
      refine mirrors_separatedFrom ?_ List.not_mem_nil (by decide) rfl
      intro gathered gathered' hsame
      exact mirrors_parseOption hvalue context hsame
    apply hlist.bind_inside
    · intro gathered
      apply (consumes_expect (by decide)).bind
      intro _
      exact moves_pure _
    · intro gathered gathered' hsame
      rw [hsame]
      exact (mirrors_expect (by decide)).map fun _ _ _ => rfl
  · exact mirrors_pure rfl

end OptionSet

/-! ## Paths -/

namespace PathSegment

variable {schema : Schema}

/-- Behind the name of a complex property comes a slash, so the path does not end there. -/
theorem mirrors_parseComplex? (path : Progress) :
    Mirrors .item id (parseComplex? schema path) (parseComplex? schema path) := by
  apply mirrors_current
  · intro token token' hword
    have hfound : complexProperty? schema path.owner token =
        complexProperty? schema path.owner token' := by
      obtain ⟨kind, text, span⟩ := token
      cases hword
      rfl
    rw [hfound]
    cases complexProperty? schema path.owner token' with
    | none => exact mirrors_pure rfl
    | some found =>
      obtain ⟨property, type⟩ := found
      apply mirrors_next_expect (by decide)
      intro _ _ _ _ _ _
      apply (type.mirrors_parseCast? schema).bind_id
      intro cast
      dsimp only
      split
      · exact (mirrors_expect (by decide)).map fun _ _ _ => rfl
      · exact mirrors_pure rfl
  · intro token token' hends hends'
    have hnone : ∀ token : Token, token.word.EndsAt .item →
        complexProperty? schema path.owner token = none :=
      fun token hends => complexProperty?_of_kind_ne (hends.kind_ne (by decide))
    rw [hnone token hends, hnone token' hends']
    exact mirrors_pure rfl

theorem progresses_parseComplex? (path : Progress) :
    Progresses (·.isSome) (parseComplex? schema path) := by
  apply moves_current.bind_progresses
  intro token
  split
  · exact progresses_pure Bool.false_ne_true
  · apply moves_next.bind_progresses
    intro _
    apply Consumes.progresses
    apply (consumes_expect (by decide)).bind
    intro _
    apply (StructuredType.mirrors_parseCast? schema _).moves.bind
    intro cast
    dsimp only
    split
    · exact (moves_expect _).map _
    · exact moves_pure _

theorem mirrors_parseNavigation (path : Progress) {token token' : Token}
    (htext : token.text = token'.text) :
    Mirrors .item id (parseNavigation schema path token) (parseNavigation schema path token') := by
  rw [parseNavigation, parseNavigation, htext]
  cases schema.navigation? path.owner token'.text with
  | none => exact mirrors_throw _
  | some target =>
    apply (mirrors_accept (by decide)).bind_id
    intro slash
    dsimp only
    split
    · apply (target.targetType.mirrors_parseCast? schema).bind_id
      intro _
      exact mirrors_pure rfl
    · exact Mirrors.bind_id (mirrors_pure rfl) fun _ => mirrors_pure rfl

theorem mirrors_parsePath (owner : StructuredType) :
    Mirrors .item id (parsePath schema owner) (parsePath schema owner) := by
  have hpath : Mirrors .item id (iterate (parseComplex? schema) { owner })
      (iterate (parseComplex? schema) { owner }) := by
    apply mirrors_iterate _ progresses_parseComplex? rfl
    intro path path' hsame
    rw [show path = path' from hsame]
    exact (mirrors_parseComplex? path').coarsen fun next? next?' hnext => congrArg _ hnext
  apply hpath.bind_id
  intro path
  apply (mirrors_take? (by decide)).bind_token
  · intro token token' hword
    exact mirrors_parseNavigation path (congrArg Word.text hword)
  · apply (mirrors_accept (by decide)).bind_bool
    · exact mirrors_pure rfl
    · exact mirrors_unexpected _

theorem mirrors_parseSuffix (slash : Bool) :
    Mirrors .item id (parseSuffix slash) (parseSuffix slash) := by
  have hsuffix : Mirrors .item id (do
      if ← accept .ref then return ([PathSegment.ref], OptionContext.references)
      else if ← accept (.option .count) then return ([.count], .counting)
      else unexpected "$ref or $count") (do
      if ← accept .ref then return ([PathSegment.ref], OptionContext.references)
      else if ← accept (.option .count) then return ([.count], .counting)
      else unexpected "$ref or $count") := by
    apply (mirrors_accept (by decide)).bind_bool
    · exact mirrors_pure rfl
    · apply (mirrors_accept (by decide)).bind_bool
      · exact mirrors_pure rfl
      · exact mirrors_unexpected _
  cases slash with
  | true => exact Mirrors.bind_bool (mirrors_pure rfl) hsuffix (mirrors_pure rfl)
  | false => exact (mirrors_accept (by decide)).bind_bool hsuffix (mirrors_pure rfl)

end PathSegment

/-! ## Items -/

namespace ExpandItem

theorem mirrors_parseStar : Mirrors .item id parseStar parseStar := by
  apply (mirrors_accept (by decide)).bind_bool
  · exact (mirrors_expect (by decide)).map fun _ _ _ => rfl
  · apply (mirrors_accept (by decide)).bind_bool
    · apply (mirrors_expect (by decide)).bind
      intro _ _ _
      apply (mirrors_expect (by decide)).bind
      intro _ _ _
      apply Levels.mirrors_parse.bind_id
      intro levels
      exact (mirrors_expect (by decide)).map fun _ _ _ => rfl
    · exact mirrors_pure rfl

variable {scope : Scope} {expansion : StructuredType → Parser Expand}
  (hexpansion : ∀ owner, Mirrors .value id (expansion owner) (expansion owner))

include hexpansion

theorem mirrors_parsePath (cast : Option StructuredType) (owner : StructuredType) :
    Mirrors .item id (parsePath scope expansion cast owner) (parsePath scope expansion cast owner) := by
  apply (PathSegment.mirrors_parsePath owner).bind_id
  intro target
  apply (PathSegment.mirrors_parseSuffix target.slash).bind_id
  rintro ⟨suffix, context⟩
  have hvalue := SystemOption.mirrors_parseValue scope hexpansion target.type
  apply (OptionSet.mirrors_parse hvalue context).bind_id
  intro _
  exact mirrors_pure rfl

theorem mirrors_parse (owner : StructuredType) :
    Mirrors .item id (ExpandItem.parse scope expansion owner)
      (ExpandItem.parse scope expansion owner) := by
  apply (mirrors_accept (by decide)).bind_bool
  · exact mirrors_parseStar
  · apply (owner.mirrors_parseCast? scope.schema).bind_id
    intro cast?
    cases cast? with
    | none => exact mirrors_parsePath hexpansion none owner
    | some cast =>
      apply (mirrors_expect (by decide)).bind
      intro _ _ _
      exact mirrors_parsePath hexpansion cast cast

end ExpandItem

theorem Expand.mirrors_parseWithin (scope : Scope) (levels : Nat) (owner : StructuredType) :
    Mirrors .value id (Expand.parseWithin scope levels owner) (Expand.parseWithin scope levels owner) := by
  induction levels generalizing owner with
  | zero => exact mirrors_failHere _
  | succ levels ih =>
    exact ((ExpandItem.mirrors_parse ih owner).narrow (by decide)).separated_id (by decide) (by decide)

end ODataOptions
