import ODataOptions.Proofs.Expand.Soundness
import ODataOptions.Proofs.Expression.Tracks
import ODataOptions.Proofs.Search.Tracks
import ODataOptions.Proofs.Select.Tracks

/-!
# Expansions in two runs side by side

Two runs over the same words, in the same schema and under the same limits, have the same trees.  A
second option of a kind is found in both, and the place of the first one corresponds as well.
-/

namespace ODataOptions

open ODataOptions.Parser

/-! ## Simple values -/

section Values

variable {C : Comparison} (hwords : C.Respelled)

include hwords

theorem Parser.tracks_wholeNumber (option : String) (zeroAllowed : Bool) :
    C.Tracks Eq (wholeNumber option zeroAllowed) (wholeNumber option zeroAllowed) := by
  apply (hwords.expect .integer rfl).bind
  rintro token token' ⟨htoken, htext⟩
  rw [htext]
  split
  · exact .pure rfl
  · exact .throw ⟨rfl, C.span htoken, .none⟩

theorem Parser.tracks_truthValue : C.Tracks Eq truthValue truthValue :=
  (hwords.expect .boolean rfl).map fun _ _ ⟨_, htext⟩ => by rw [htext]

theorem Levels.tracks_parse : C.Tracks Eq Levels.parse Levels.parse := by
  apply (hwords.accept .max).bind_eq
  intro _
  refine .ite .rfl ?_ ?_
  · exact .pure rfl
  · apply (tracks_wholeNumber hwords _ _).bind_eq
    intro _
    exact .pure rfl

/-! ## Options in parentheses -/

namespace OptionSet

variable {Expansion : Type}

omit hwords in
theorem allowedKind?_eq (context : OptionContext) {token token' : Token}
    (hkind : token.kind = token'.kind) : allowedKind? context token = allowedKind? context token' := by
  rw [allowedKind?, allowedKind?, hkind]

/-- The same options have been given in both runs, at places that correspond. -/
def SamePlaces (C : Comparison) : Places → Places → Prop :=
  List.Forall₂ fun first first' => first.1 = first'.1 ∧ C.Places first.2 first'.2

omit hwords in
/-- The first option of a kind stands at places that correspond. -/
theorem SamePlaces.lookup {places places' : Places} (kind : OptionKind)
    (hplaces : SamePlaces C places places') :
    Option.Rel C.Places (places.lookup kind) (places'.lookup kind) := by
  induction hplaces with
  | nil => exact .none
  | @cons first first' _ _ hfirst _ ih =>
    obtain ⟨found, place⟩ := first
    obtain ⟨found', place'⟩ := first'
    obtain ⟨rfl, hplace⟩ := hfirst
    rw [List.lookup_cons, List.lookup_cons]
    cases kind == found with
    | true => exact .some hplace
    | false => exact ih

/-- The same options have been gathered in both runs, at places that correspond. -/
structure Gathered.Corresponds (C : Comparison) (gathered gathered' : Gathered Expansion) : Prop where
  options : gathered.options = gathered'.options
  places : SamePlaces C gathered.places gathered'.places

omit hwords in
/-- A repetition is reported alike in both runs, whether the first place is known or not. -/
theorem Gathered.Corresponds.repetition {gathered gathered' : Gathered Expansion}
    (hgathered : gathered.Corresponds C gathered') (kind : OptionKind) {keyword keyword' : Token}
    (hkeyword : C.Tokens keyword keyword') :
    C.Faults (gathered.repetition kind keyword) (gathered'.repetition kind keyword') := by
  have hlookup := hgathered.places.lookup kind
  rw [Gathered.repetition, Gathered.repetition]
  generalize gathered.places.lookup kind = first?, gathered'.places.lookup kind = first?' at hlookup
  cases hlookup with
  | none => exact ⟨rfl, C.span hkeyword, .none⟩
  | some hfirst => exact ⟨rfl, C.span hkeyword, .some hfirst⟩

variable {value value' : OptionKind → Parser (SystemOption Expansion)}
  (hvalue : ∀ kind, C.Tracks Eq (value kind) (value' kind)) (context : OptionContext)

include hvalue

theorem tracks_parseOption {gathered gathered' : Gathered Expansion}
    (hgathered : gathered.Corresponds C gathered') :
    C.Tracks (Gathered.Corresponds C) (parseOption value context gathered)
      (parseOption value' context gathered') := by
  apply Comparison.Tracks.current.bind
  intro keyword keyword' hkeyword
  rw [← allowedKind?_eq context (hwords hkeyword).kind]
  cases allowedKind? context keyword with
  | none => exact .failHere rfl
  | some kind =>
    apply Comparison.Tracks.next.bind
    intro _ _ _
    apply (hwords.expect_mark .equals).bind
    intro _ _ _
    apply (hvalue kind).bind_eq
    intro option
    rw [hgathered.options]
    cases gathered'.options.insert option with
    | ok options => exact .pure ⟨rfl, .cons ⟨rfl, C.span hkeyword⟩ hgathered.places⟩
    | error _ => exact .throw (hgathered.repetition kind hkeyword)

theorem tracks_parse : C.Tracks Eq (parse value context) (parse value' context) := by
  apply (hwords.accept .openParen).bind_eq
  intro opened
  apply Comparison.Tracks.ite .rfl
  · have hlist := Comparison.Tracks.separatedFrom
      (fun _ _ hgathered => tracks_parseOption hwords hvalue context hgathered)
      (hwords.sameIsA .semicolon) (⟨rfl, .nil⟩ : Gathered.Corresponds C {} {})
    apply hlist.bind
    intro gathered gathered' hgathered
    apply (hwords.expect_mark .closeParen).bind
    intro _ _ _
    exact .pure hgathered.options
  · exact .pure rfl

end OptionSet

/-! ## Paths -/

namespace PathSegment

variable (schema : Schema)

/-- A complex property is named by an identifier, whose text is the same in both runs. -/
theorem complexProperty?_eq (owner : StructuredType) {token token' : Token}
    (htoken : C.Tokens token token') :
    complexProperty? schema owner token = complexProperty? schema owner token' := by
  have hrespells := hwords htoken
  have hkinds : token.kind = token'.kind := hrespells.kind
  by_cases hkind : token.kind = .identifier
  · have hword := hrespells.eq_of_plain (by rw [Token.word_kind, hkind]; rfl)
    have htext : token.text = token'.text := congrArg Word.text hword
    rw [complexProperty?, complexProperty?, htext, hkinds]
  · rw [complexProperty?_of_kind_ne hkind, complexProperty?_of_kind_ne (hkinds ▸ hkind)]

theorem tracks_parseComplex? (path : Progress) :
    C.Tracks Eq (parseComplex? schema path) (parseComplex? schema path) := by
  apply Comparison.Tracks.current.bind
  intro token token' htoken
  rw [← complexProperty?_eq hwords schema path.owner htoken]
  split
  · exact .pure rfl
  · next property type _ =>
    apply Comparison.Tracks.next.bind
    intro _ _ _
    apply (hwords.expect_mark .slash).bind
    intro _ _ _
    apply (type.tracks_parseCast? hwords schema).bind_eq
    intro cast?
    dsimp only
    split
    · apply (hwords.expect_mark .slash).bind
      intro _ _ _
      exact .pure rfl
    · exact .pure rfl

theorem tracks_parseNavigation (path : Progress) {token token' : Token}
    (htoken : C.Tokens token token') (htext : token.text = token'.text) :
    C.Tracks Eq (parseNavigation schema path token) (parseNavigation schema path token') := by
  rw [parseNavigation, parseNavigation, htext]
  split
  · exact .throw ⟨rfl, C.span htoken, .none⟩
  · next target _ =>
    apply (hwords.accept .slash).bind_eq
    intro slash
    cases slash with
    | false => exact .pure rfl
    | true => exact (target.targetType.tracks_parseCast? hwords schema).bind_eq fun _ => .pure rfl

theorem tracks_parsePath (owner : StructuredType) :
    C.Tracks Eq (parsePath schema owner) (parsePath schema owner) := by
  have hsteps : C.Tracks Eq (iterate (parseComplex? schema) { owner })
      (iterate (parseComplex? schema) { owner }) :=
    .iterate_eq (tracks_parseComplex? hwords schema) _
  apply hsteps.bind_eq
  intro path
  apply (hwords.take? .identifier rfl).bind
  intro found found' hfound
  cases hfound with
  | some hfound => exact tracks_parseNavigation hwords schema path hfound.1 hfound.2
  | none => exact (hwords.accept .star).bind_eq fun _ => .ite .rfl (.pure rfl) (.unexpected _)

theorem tracks_parseSuffix (slash : Bool) : C.Tracks Eq (parseSuffix slash) (parseSuffix slash) := by
  have hbehind : C.Tracks Eq (parseSuffix true) (parseSuffix true) := by
    apply (hwords.accept .ref).bind_eq
    intro _
    refine .ite .rfl ?_ ?_
    · exact .pure rfl
    · apply (hwords.accept (.option .count)).bind_eq
      intro _
      exact .ite .rfl (.pure rfl) (.unexpected _)
  cases slash with
  | true => exact hbehind
  | false =>
    apply (hwords.accept .slash).bind_eq
    intro found
    cases found with
    | true => exact hbehind
    | false => exact .pure rfl

end PathSegment

theorem ExpandItem.tracks_parseStar : C.Tracks Eq ExpandItem.parseStar ExpandItem.parseStar := by
  apply (hwords.accept .slash).bind_eq
  intro _
  refine .ite .rfl ?_ ?_
  · apply (hwords.expect_mark .ref).bind
    intro _ _ _
    exact .pure rfl
  · apply (hwords.accept .openParen).bind_eq
    intro _
    refine .ite .rfl ?_ (.pure rfl)
    apply (hwords.expect_mark (.option .levels)).bind
    intro _ _ _
    apply (hwords.expect_mark .equals).bind
    intro _ _ _
    apply (Levels.tracks_parse hwords).bind_eq
    intro levels
    apply (hwords.expect_mark .closeParen).bind
    intro _ _ _
    exact .pure rfl

end Values

/-! ## Items -/

namespace ScopedComparison

variable {C : ScopedComparison} (hplain : ∀ name, C.inlining.token? name = none)

include hplain

section Items

variable {expansion expansion' : StructuredType → Parser Expand}
  (hexpansion : ∀ owner, C.Tracks Eq (expansion owner) (expansion' owner))

include hexpansion

/-- The value of an option is the same in both runs, whatever its kind. -/
theorem tracks_parseValue (owner : StructuredType) (kind : OptionKind) :
    C.Tracks Eq (SystemOption.parseValue C.scope expansion owner kind)
      (SystemOption.parseValue C.scope' expansion' owner kind) := by
  have hwords := respelled hplain
  cases kind with
  | count => exact (tracks_truthValue hwords).bind_eq fun _ => .pure rfl
  | expand => exact (hexpansion owner).bind_eq fun _ => .pure rfl
  | filter => exact (tracks_parseFilter hplain owner).bind_eq fun _ => .pure rfl
  | levels => exact (Levels.tracks_parse hwords).bind_eq fun _ => .pure rfl
  | orderBy => exact (tracks_parseOrderBy hplain owner).bind_eq fun _ => .pure rfl
  | search => exact (SearchExpression.tracks_parse hwords _).bind_eq fun _ => .pure rfl
  | select => exact (Select.tracks_parse hwords _ owner).bind_eq fun _ => .pure rfl
  | skip | top => exact (tracks_wholeNumber hwords _ _).bind_eq fun _ => .pure rfl

theorem tracks_parseExpandPath (cast : Option StructuredType) (owner : StructuredType) :
    C.Tracks Eq (ExpandItem.parsePath C.scope expansion cast owner)
      (ExpandItem.parsePath C.scope' expansion' cast owner) := by
  have hwords := respelled hplain
  apply (PathSegment.tracks_parsePath hwords C.scope.schema owner).bind_eq
  intro target
  apply (PathSegment.tracks_parseSuffix hwords target.slash).bind_eq
  intro suffix
  have hoptions := OptionSet.tracks_parse hwords
    (tracks_parseValue hplain hexpansion target.type) suffix.2
  apply hoptions.bind_eq
  intro _
  exact .pure rfl

theorem tracks_parseExpandItem (owner : StructuredType) :
    C.Tracks Eq (ExpandItem.parse C.scope expansion owner)
      (ExpandItem.parse C.scope' expansion' owner) := by
  have hwords := respelled hplain
  apply (hwords.accept .star).bind_eq
  intro _
  refine .ite .rfl (ExpandItem.tracks_parseStar hwords) ?_
  apply (owner.tracks_parseCast? hwords C.scope.schema).bind_eq
  intro cast?
  cases cast? with
  | none => exact tracks_parseExpandPath hplain hexpansion none owner
  | some cast =>
    apply (hwords.expect_mark .slash).bind
    intro _ _ _
    exact tracks_parseExpandPath hplain hexpansion (some cast) cast

end Items

theorem tracks_parseWithin (levels : Nat) (owner : StructuredType) :
    C.Tracks Eq (Expand.parseWithin C.scope levels owner)
      (Expand.parseWithin C.scope' levels owner) := by
  induction levels generalizing owner with
  | zero => exact .failHere rfl
  | succ levels ih =>
    exact .separated_eq (tracks_parseExpandItem hplain ih owner)
      ((respelled hplain).sameIsA .comma)

/-- The second run keeps up with the first one, and has the same tree. -/
theorem tracks_parseExpand (owner : StructuredType) :
    C.Tracks Eq (Expand.parse C.scope owner) (Expand.parse C.scope' owner) :=
  tracks_parseWithin hplain _ owner

end ScopedComparison

end ODataOptions
