import ODataOptions.Proofs.Parser.Recursion
import ODataOptions.Proofs.Select.Mirrors

/-!
# The recursion of selections

A selection is a loop over items, and an item is a loop over the segments of a path.  The latter begins at the
same place as the item where no cast stands before the path, so it is one rung below.
-/

namespace ODataOptions

open ODataOptions.Parser

def SelectItem.parseOf (schema : Schema) (owner : StructuredType)
    (segments : StructuredType → Parser (List SelectSegment)) : Parser SelectItem := do
  if ← accept .star then return .star
  else
    match ← owner.parseCast? schema with
    | none => return .path none (← segments owner)
    | some cast =>
      let _ ← expect .slash
      return .path cast (← segments cast)

theorem SelectItem.parse_eq (schema : Schema) (owner : StructuredType) :
    SelectItem.parse schema owner =
      SelectItem.parseOf schema owner (unfold (SelectSegment.parse schema)) := rfl

theorem SelectItem.sameOn_parseOf {region inside : Cursor → Prop} (hinside : Cursor.Inner region inside)
    (schema : Schema) (owner : StructuredType)
    {segments segments' : StructuredType → Parser (List SelectSegment)}
    (hsegments : ∀ owner, SameOn region (segments owner) (segments' owner)) :
    SameOn region (SelectItem.parseOf schema owner segments)
      (SelectItem.parseOf schema owner segments') := by
  apply SameOn.moves_bind hinside (moves_accept _)
  intro star
  apply SameOn.ite (.refl _ _)
  apply SameOn.moves_bind hinside (owner.mirrors_parseCast? schema).moves
  intro cast?
  cases cast? with
  | none => exact (hsegments owner).bind_same _
  | some cast =>
    apply SameOn.moves_bind hinside (moves_expect _)
    intro _
    exact (hsegments cast).bind_same _

theorem SelectItem.consumes_parse (schema : Schema) (owner : StructuredType) :
    Consumes (SelectItem.parse schema owner) := by
  have hmoves (owner : StructuredType) : Moves (SelectSegment.parse schema owner) :=
    (SelectSegment.mirrors_parse owner).moves
  apply consumes_of_progresses
  refine (progresses_accept (by decide)).bind_bool (moves_accept _) (moves_pure _) (Consumes.progresses ?_)
  apply (owner.mirrors_parseCast? schema).moves.bind_consumes
  intro cast?
  cases cast? with
  | none =>
    have hpath := Consumes.unfold (@SelectSegment.consumes_parse schema) hmoves owner
    apply hpath.bind
    intro _
    exact moves_pure _
  | some cast =>
    apply (consumes_expect (by decide)).bind
    intro _
    exact (moves_unfold hmoves cast).map _

theorem Select.consumes_parse (schema : Schema) (owner : StructuredType) :
    Consumes (Select.parse schema owner) :=
  (SelectItem.consumes_parse schema owner).separated (SelectItem.mirrors_parse owner).moves .comma

namespace Select

/-- The loops of a selection, from their states on. -/
inductive Rule
  | items
  | segments (owner : StructuredType)

namespace Rule

abbrev Value : Rule → Type
  | items => Select
  | segments _ => List SelectSegment

/-- The segments of a path stand below the items. -/
def rung : Rule → Nat
  | items => 1
  | segments _ => 0

theorem rung_lt (rule : Rule) : rule.rung < 2 := by
  cases rule <;> simp only [rung] <;> omega

end Rule

variable (schema : Schema) (owner : StructuredType)

def body (calls : Family Rule.Value) : Family Rule.Value
  | .items =>
    unfoldOnce
      (separatedStep (SelectItem.parseOf schema owner fun owner => calls (.segments owner)) .comma)
      (fun _ => calls .items) ()
  | .segments owner =>
    unfoldOnce (SelectSegment.parse schema) (fun owner => calls (.segments owner)) owner

def family : Family Rule.Value
  | .items => Select.parse schema owner
  | .segments owner => unfold (SelectSegment.parse schema) owner

/-- The loops do what the body says. -/
theorem body_family : body schema owner (family schema owner) = family schema owner := by
  funext rule
  cases rule with
  | items =>
    change unfoldOnce (separatedStep (SelectItem.parseOf schema owner
      (unfold (SelectSegment.parse schema))) .comma) (fun _ => Select.parse schema owner) () = _
    rw [← SelectItem.parse_eq]
    exact (separated_eq_once (SelectItem.mirrors_parse owner).moves (by decide)).symm
  | segments owner =>
    exact (unfold_eq_once (fun owner => (SelectSegment.consumes_parse owner).progresses) owner).symm

/-- Every round of a loop is behind a token, and a path begins at an item. -/
theorem descends_family : Descends Rule.rung (body schema owner) (family schema owner) := by
  apply descends_of_sameOn (body_family schema owner)
  intro calls rule start hbehind hlower
  have hinside := Cursor.inner_behind start 0
  cases rule with
  | items =>
    have hitem := SelectItem.sameOn_parseOf hinside schema owner fun owner =>
      hlower (.segments owner) Nat.zero_lt_one
    have hmoves : Moves (SelectItem.parse schema owner) := (SelectItem.mirrors_parse owner).moves
    exact .unfoldOnce hinside (hitem.bind_same _) (moves_separatedStep hmoves _ ())
      (progresses_separatedStep hmoves (by decide) ()) fun _ => hbehind .items
  | segments owner =>
    exact .unfoldOnce hinside (.refl _ _) (SelectSegment.mirrors_parse owner).moves
      (SelectSegment.consumes_parse owner).progresses fun next => hbehind (.segments next)

end Select

end ODataOptions
