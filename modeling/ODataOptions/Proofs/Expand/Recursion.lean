import ODataOptions.Proofs.Expand.Mirrors
import ODataOptions.Proofs.Parser.Recursion

/-!
# The recursion of expansions

An expansion is a loop over items, an item begins with a loop over the complex properties of its path, and its
options are a loop behind an opening parenthesis.  An expansion among these comes behind its keyword, so all
that it does comes behind tokens that the outer one has consumed.  Whether the types that paths lead to come
round in a circle plays no part in this.
-/

namespace ODataOptions

open ODataOptions.Parser

/-! ## Rules with their parts as parameters -/

def PathSegment.parsePathOf (schema : Schema) (complex : Parser Progress) : Parser Target := do
  let path ← complex
  match ← take? .identifier with
  | some token => parseNavigation schema path token
  | none =>
    if ← accept .star then
      return { segments := path.segments, star := true, type := path.owner, slash := false }
    else unexpected "navigation property or '*'"

/-- Options in parentheses, if there are any, given how the options there are gathered. -/
def OptionSet.parseOf {Expansion : Type} (list : Parser (Gathered Expansion)) :
    Parser (OptionSet Expansion) := do
  if ← accept .openParen then
    let gathered ← list
    let _ ← expect .closeParen
    return gathered.options
  else return .empty

namespace ExpandItem

def parsePathOf (path : Parser PathSegment.Target)
    (options : StructuredType → OptionContext → Parser (OptionSet Expand))
    (cast : Option StructuredType) : Parser ExpandItem := do
  let target ← path
  let (suffix, context) ← PathSegment.parseSuffix target.slash
  let options ← options target.type context
  return .path cast (target.segments ++ suffix) target.star options

def parseOf (schema : Schema) (owner : StructuredType)
    (path : Option StructuredType → StructuredType → Parser ExpandItem) : Parser ExpandItem := do
  if ← accept .star then parseStar
  else
    match ← owner.parseCast? schema with
    | none => path none owner
    | some cast =>
      let _ ← expect .slash
      path cast cast

end ExpandItem

/-! ## What the rules do in a region -/

section Regions

variable {region inside : Cursor → Prop} (hinside : Cursor.Inner region inside)

include hinside

omit hinside in
theorem PathSegment.sameOn_parsePathOf (schema : Schema) {complex complex' : Parser Progress}
    (hcomplex : SameOn region complex complex') :
    SameOn region (parsePathOf schema complex) (parsePathOf schema complex') :=
  hcomplex.bind_same _

/-- The options are parsed behind the opening parenthesis. -/
theorem OptionSet.sameOn_parseOf {Expansion : Type} {list list' : Parser (Gathered Expansion)}
    (hlist : SameOn inside list list') : SameOn region (parseOf list) (parseOf list') :=
  .bind_bool hinside (moves_accept _) (progresses_accept (by decide)) (hlist.bind_same _) (.refl _ _)

/-- The value of an option is parsed behind its keyword. -/
theorem OptionSet.sameOn_parseOption {Expansion : Type}
    {value value' : OptionKind → Parser (SystemOption Expansion)}
    (hvalue : ∀ kind, SameOn inside (value kind) (value' kind)) (context : OptionContext)
    (gathered : Gathered Expansion) :
    SameOn region (parseOption value context gathered) (parseOption value' context gathered) := by
  apply SameOn.moves_bind hinside moves_current
  intro keyword
  cases allowedKind? context keyword with
  | none => exact .refl _ _
  | some kind =>
    apply SameOn.moves_bind hinside moves_next
    intro _
    apply SameOn.expect_bind hinside (by decide)
    intro _
    exact (hvalue kind).bind_same _

omit hinside in
/-- Only an expansion among the options depends on how expansions are parsed. -/
theorem SystemOption.sameOn_parseValue {Expansion : Type} (scope : Scope)
    {expansion expansion' : StructuredType → Parser Expansion} (owner : StructuredType)
    (hexpansion : ∀ owner, SameOn region (expansion owner) (expansion' owner)) (kind : OptionKind) :
    SameOn region (parseValue scope expansion owner kind) (parseValue scope expansion' owner kind) := by
  cases kind with
  | expand => exact (hexpansion owner).bind_same _
  | _ => exact .refl _ _

namespace ExpandItem

theorem sameOn_parsePathOf {path path' : Parser PathSegment.Target}
    {options options' : StructuredType → OptionContext → Parser (OptionSet Expand)}
    (hpath : SameOn region path path') (hmoves : Moves path')
    (hoptions : ∀ type context, SameOn region (options type context) (options' type context))
    (cast : Option StructuredType) :
    SameOn region (parsePathOf path options cast) (parsePathOf path' options' cast) := by
  apply hpath.bind hinside hmoves
  intro target
  have hsuffix := (PathSegment.mirrors_parseSuffix target.slash).moves
  apply SameOn.moves_bind hinside hsuffix
  intro suffix
  exact (hoptions target.type suffix.2).bind_same _

theorem sameOn_parseOf (schema : Schema) (owner : StructuredType)
    {path path' : Option StructuredType → StructuredType → Parser ExpandItem}
    (hpath : ∀ cast owner, SameOn region (path cast owner) (path' cast owner)) :
    SameOn region (parseOf schema owner path) (parseOf schema owner path') := by
  apply SameOn.moves_bind hinside (moves_accept _)
  intro star
  apply SameOn.ite (.refl _ _)
  apply SameOn.moves_bind hinside (owner.mirrors_parseCast? schema).moves
  intro cast?
  cases cast? with
  | none => exact hpath none owner
  | some cast =>
    apply SameOn.moves_bind hinside (moves_expect _)
    intro _
    exact hpath cast cast

end ExpandItem

end Regions

/-! ## Items consume tokens -/

theorem PathSegment.consumes_parsePath (schema : Schema) (owner : StructuredType) :
    Consumes (parsePath schema owner) := by
  have hcomplex : Moves (iterate (parseComplex? schema) { owner }) :=
    moves_iterate (fun path => (mirrors_parseComplex? path).moves) _
  have hname : Progresses (·.isSome) (take? .identifier) :=
    progresses_takeIf fun _ => Token.kind_ne_endOfInput_of_isA (by decide)
  apply hcomplex.bind_consumes
  intro path
  apply consumes_of_progresses
  refine hname.bind_option (moves_takeIf _) (fun token => (mirrors_parseNavigation path rfl).moves) ?_
  exact (progresses_accept (by decide)).bind_bool (moves_accept _) (moves_pure _) (progresses_unexpected _)

namespace ExpandItem

variable {scope : Scope} {expansion : StructuredType → Parser Expand}
  (hexpansion : ∀ owner, Mirrors .value id (expansion owner) (expansion owner))

include hexpansion

theorem consumes_parse (owner : StructuredType) : Consumes (ExpandItem.parse scope expansion owner) := by
  apply consumes_of_progresses
  refine (progresses_accept (by decide)).bind_bool (moves_accept _) mirrors_parseStar.moves
    (Consumes.progresses ?_)
  apply (owner.mirrors_parseCast? scope.schema).moves.bind_consumes
  intro cast?
  cases cast? with
  | none =>
    apply (PathSegment.consumes_parsePath scope.schema owner).bind
    intro target
    apply (PathSegment.mirrors_parseSuffix target.slash).moves.bind
    rintro ⟨suffix, context⟩
    exact (OptionSet.mirrors_parse (SystemOption.mirrors_parseValue scope hexpansion target.type)
      context).moves.map _
  | some cast =>
    apply (consumes_expect (by decide)).bind
    intro _
    exact (mirrors_parsePath hexpansion cast cast).moves

end ExpandItem

theorem Expand.consumes_parseWithin (scope : Scope) (levels : Nat) (owner : StructuredType) :
    Consumes (Expand.parseWithin scope levels owner) := by
  cases levels with
  | zero => exact consumes_failHere _
  | succ levels =>
    have hexpansion := Expand.mirrors_parseWithin scope levels
    exact (ExpandItem.consumes_parse hexpansion owner).separated
      (ExpandItem.mirrors_parse hexpansion owner).moves .comma

/-! ## The recursion -/

namespace Expand

/-- The loops of expansions, from their states on.  The options are those of an item whose expansion may have
so many levels more. -/
inductive Rule
  | items (levels : Nat) (owner : StructuredType)
  | complex (path : PathSegment.Progress)
  | options (levels : Nat) (owner : StructuredType) (context : OptionContext)
    (gathered : OptionSet.Gathered Expand)

namespace Rule

abbrev Value : Rule → Type
  | items _ _ => Expand
  | complex _ => PathSegment.Progress
  | options _ _ _ _ => OptionSet.Gathered Expand

/-- The complex properties of a path stand below the items. -/
def rung : Rule → Nat
  | items _ _ => 1
  | complex _ | options _ _ _ _ => 0

theorem rung_lt (rule : Rule) : rule.rung < 2 := by
  cases rule <;> simp only [rung] <;> omega

end Rule

section Recursion

variable (scope : Scope)

def itemOf (calls : Family Rule.Value) (levels : Nat) (owner : StructuredType) : Parser ExpandItem :=
  ExpandItem.parseOf scope.schema owner fun cast owner =>
    ExpandItem.parsePathOf (PathSegment.parsePathOf scope.schema (calls (.complex { owner })))
      (fun type context => OptionSet.parseOf (calls (.options levels type context {}))) cast

def valueOf (calls : Family Rule.Value) (levels : Nat) (owner : StructuredType) :
    OptionKind → Parser (SystemOption Expand) :=
  SystemOption.parseValue scope (fun owner => calls (.items levels owner)) owner

def body (calls : Family Rule.Value) : Family Rule.Value
  | .items 0 _ => failHere (.expandTooDeep scope.limits.expandDepth)
  | .items (levels + 1) owner =>
    unfoldOnce (separatedStep (itemOf scope calls levels owner) .comma)
      (fun _ => calls (.items (levels + 1) owner)) ()
  | .complex path =>
    iterateOnce (PathSegment.parseComplex? scope.schema) (fun path => calls (.complex path)) path
  | .options levels owner context gathered =>
    separatedFromOnce (OptionSet.parseOption (valueOf scope calls levels owner) context) .semicolon
      (fun gathered => calls (.options levels owner context gathered)) gathered

def family : Family Rule.Value
  | .items levels owner => parseWithin scope levels owner
  | .complex path => iterate (PathSegment.parseComplex? scope.schema) path
  | .options levels owner context gathered =>
    separatedFrom
      (OptionSet.parseOption (SystemOption.parseValue scope (parseWithin scope levels) owner) context)
      .semicolon gathered

theorem itemOf_family (levels : Nat) (owner : StructuredType) :
    itemOf scope (family scope) levels owner = ExpandItem.parse scope (parseWithin scope levels) owner :=
  rfl

theorem moves_item (levels : Nat) (owner : StructuredType) :
    Moves (itemOf scope (family scope) levels owner) := by
  rw [itemOf_family]
  exact (ExpandItem.mirrors_parse (mirrors_parseWithin scope levels) owner).moves

theorem moves_option (levels : Nat) (owner : StructuredType) (context : OptionContext)
    (gathered : OptionSet.Gathered Expand) :
    Moves (OptionSet.parseOption (valueOf scope (family scope) levels owner) context gathered) :=
  (OptionSet.mirrors_parseOption
    (SystemOption.mirrors_parseValue scope (mirrors_parseWithin scope levels) owner) context rfl).moves

/-- The loops do what the body says. -/
theorem body_family : body scope (family scope) = family scope := by
  funext rule
  cases rule with
  | items levels owner =>
    cases levels with
    | zero => rfl
    | succ levels => exact (separated_eq_once (moves_item scope levels owner) (by decide)).symm
  | complex path => exact (iterate_eq_once PathSegment.progresses_parseComplex? path).symm
  | options levels owner context gathered =>
    exact (separatedFrom_eq_once (moves_option scope levels owner context) (by decide) gathered).symm

/-- Every round of a loop is behind a token, and so is every expansion among the options of another one. -/
theorem descends_family : Descends Rule.rung (body scope) (family scope) := by
  apply descends_of_sameOn (body_family scope)
  intro calls rule start hbehind hlower
  have hinside := Cursor.inner_behind start 0
  cases rule with
  | items levels owner =>
    cases levels with
    | zero => exact .refl _ _
    | succ levels =>
      have hpath (cast : Option StructuredType) (owner : StructuredType) :=
        ExpandItem.sameOn_parsePathOf hinside
          (PathSegment.sameOn_parsePathOf scope.schema
            (hlower (.complex { owner }) Nat.zero_lt_one))
          (PathSegment.mirrors_parsePath owner).moves
          (fun type context => OptionSet.sameOn_parseOf hinside (hbehind (.options levels type context {})))
          cast
      have hitem := ExpandItem.sameOn_parseOf hinside scope.schema owner hpath
      have hmoves := moves_item scope levels owner
      exact .unfoldOnce hinside (hitem.bind_same _) (moves_separatedStep hmoves _ ())
        (progresses_separatedStep hmoves (by decide) ()) fun _ => hbehind (.items (levels + 1) owner)
  | complex path =>
    exact .iterateOnce hinside (.refl _ _) (PathSegment.mirrors_parseComplex? path).moves
      (PathSegment.progresses_parseComplex? path) fun path => hbehind (.complex path)
  | options levels owner context gathered =>
    have hvalue := SystemOption.sameOn_parseValue scope owner fun owner => hbehind (.items levels owner)
    have hoption := OptionSet.sameOn_parseOption hinside hvalue context gathered
    apply SameOn.separatedFromOnce hinside (by decide) hoption
    · exact moves_option scope levels owner context gathered
    · intro gathered
      exact hbehind (.options levels owner context gathered)

end Recursion

end Expand

end ODataOptions
