import ODataOptions.Expand.Read
import ODataOptions.Proofs.SystemOption.Places

/-!
# Where faults of expansions are found

Every fault that an expansion is refused with points at real places of its text, so a report shows
them as they are.
-/

namespace ODataOptions

open ODataOptions.Parser

variable {source : String}

/-! ## Paths -/

namespace PathSegment

theorem located_parseComplex? (schema : Schema) (path : Progress) :
    Located source (parseComplex? schema path) := by
  apply located_current.bind
  intro token
  cases complexProperty? schema path.owner token with
  | none => exact located_pure none
  | some found =>
    apply located_next.bind
    intro _
    apply (located_expect _).bind
    intro _
    apply (found.2.located_parseCast? schema).bind
    intro cast?
    exact .ite ((located_expect _).map _) (located_pure _)

/-- A missing navigation property is reported at the token that names it. -/
theorem located_parseNavigation (schema : Schema) (path : Progress) {token : Token}
    (hspan : token.span.LiesIn source) : Located source (parseNavigation schema path token) := by
  rw [parseNavigation]
  cases schema.navigation? path.owner token.text with
  | none => exact fun _ => locates_throw fun _ => Fault.placedIn_of_span hspan rfl
  | some target =>
    apply (located_accept _).bind
    intro slash
    cases slash with
    | true => exact (target.targetType.located_parseCast? schema).map _
    | false => exact located_pure _

theorem located_parsePath (schema : Schema) (owner : StructuredType) :
    Located source (parsePath schema owner) := by
  apply (Located.iterate (located_parseComplex? schema) _).bind
  intro path cursor
  apply (locates_takeIf _).bind
  intro found rest _ _ htoken
  cases found with
  | some token => exact located_parseNavigation schema path (htoken token rfl).2.2.liesIn rest
  | none =>
    exact ((located_accept _).bind fun _ => .ite (located_pure _) (located_unexpected _)) rest

theorem located_parseSuffix (slash : Bool) : Located source (parseSuffix slash) := by
  have hname : Located source (parseSuffix true) := by
    apply (located_accept _).bind
    intro _
    refine .ite (located_pure _) ?_
    apply (located_accept _).bind
    intro _
    exact .ite (located_pure _) (located_unexpected _)
  cases slash with
  | true => exact hname
  | false =>
    apply (located_accept _).bind
    intro found
    cases found with
    | true => exact hname
    | false => exact located_pure _

end PathSegment

/-! ## Items -/

namespace ExpandItem

theorem located_parseStar : Located source parseStar := by
  apply (located_accept _).bind
  intro _
  refine .ite ((located_expect _).map _) ?_
  apply (located_accept _).bind
  intro _
  refine .ite ?_ (located_pure _)
  apply (located_expect _).bind
  intro _
  apply (located_expect _).bind
  intro _
  apply Levels.located_parse.bind
  intro _
  exact (located_expect _).map _

variable {scope : Scope} {expansion : StructuredType → Parser Expand}
  (hexpansion : ∀ owner, Located source (expansion owner))

include hexpansion

theorem located_parsePath (cast : Option StructuredType) (owner : StructuredType) :
    Located source (parsePath scope expansion cast owner) := by
  apply (PathSegment.located_parsePath _ owner).bind
  intro target
  apply (PathSegment.located_parseSuffix _).bind
  intro suffix
  exact (OptionSet.located_parse (SystemOption.located_parseValue hexpansion _) _).map _

theorem located_parse (owner : StructuredType) :
    Located source (ExpandItem.parse scope expansion owner) := by
  apply (located_accept _).bind
  intro _
  refine .ite located_parseStar ?_
  apply (owner.located_parseCast? _).bind
  intro cast?
  cases cast? with
  | none => exact located_parsePath hexpansion none owner
  | some cast =>
    apply (located_expect _).bind
    intro _
    exact located_parsePath hexpansion cast cast

end ExpandItem

namespace Expand

theorem located_parseWithin (scope : Scope) (levels : Nat) (owner : StructuredType) :
    Located source (parseWithin scope levels owner) := by
  induction levels generalizing owner with
  | zero => exact located_failHere rfl
  | succ levels ih => exact (ExpandItem.located_parse ih owner).separated .comma

theorem located_parse (scope : Scope) (owner : StructuredType) :
    Located source (Expand.parse scope owner) :=
  located_parseWithin scope _ owner

/-- A fault with which an expansion is refused points into its text, and its labels are shown over
the text as they are. -/
theorem read_error_placed {schema : Schema} {owner : StructuredType} {fault : Fault}
    (hfails : Expand.read schema owner source = .error fault) :
    fault.PlacedIn source ∧
      fault.diagnostic.labelsOver source =
        ⟨true, fault.span, "here"⟩ ::
          fault.related.toList.map fun (place, note) => ⟨false, place, note⟩ := by
  have hplaced := ((located_parse { schema } owner).complete .expand).onText fault hfails
  exact ⟨hplaced, hplaced.labelsOver_eq⟩

/-- A filter is given twice, with a letter of two bytes in the first one, and a path breaks off. -/
theorem read_error_placed_shop :
    (∃ fault, Expand.read .shop .shopCustomer "Orders($filter=Customer/Name eq 'é';$filter=true)" =
        .error fault ∧ fault.span = ⟨37, 44⟩ ∧ fault.related.map Prod.fst = some ⟨7, 14⟩ ∧
      fault.PlacedIn "Orders($filter=Customer/Name eq 'é';$filter=true)") ∧
    ∃ fault, Expand.read .shop .shopCustomer "Orders/" = .error fault ∧
      fault.key.reportsToken = true ∧ fault.PlacedIn "Orders/" := by
  have htwice : Expand.read .shop .shopCustomer
      "Orders($filter=Customer/Name eq 'é';$filter=true)" =
        .error ⟨.doubleOption .filter, ⟨37, 44⟩, some (⟨7, 14⟩, "first given here")⟩ := by
    decide +kernel
  have hbroken : Expand.read .shop .shopCustomer "Orders/" =
      .error ⟨.unexpected "$ref or $count" (.endOfInput 7), .point 7, none⟩ := by
    decide +kernel
  exact ⟨⟨_, htwice, rfl, rfl, (read_error_placed htwice).1⟩,
    ⟨_, hbroken, rfl, (read_error_placed hbroken).1⟩⟩

end Expand

end ODataOptions
