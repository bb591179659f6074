import ODataOptions.Expand.Parser
import ODataOptions.Proofs.Expression.Places

/-!
# Where faults of option values are found

The parsers of option values point into the text with their faults.  A second option of a kind is
reported together with the first one, which stands before it.
-/

namespace ODataOptions

open ODataOptions.Parser

variable {source : String}

/-! ## Search expressions -/

namespace SearchExpression.Grammar

/-- The parts that the grammar refers back to point into the text with their faults. -/
structure Located (source : String) (grammar : Grammar) : Prop where
  whole : Parser.Located source grammar.whole
  operand : Parser.Located source grammar.operand

variable {limits : Limits} {inner : Grammar}

section

variable (hinner : inner.Located source)

include hinner

theorem located_primary : Parser.Located source (primary limits inner) := by
  have hgroup : Parser.Located source (group inner) := by
    apply (located_expect _).bind
    intro _
    apply hinner.whole.bind
    intro _
    exact (located_expect _).map _
  apply located_current.bind
  intro _
  refine .ite (hgroup.nested _) ?_
  apply (located_takeIf _).bind
  intro phrase?
  cases phrase? with
  | some token => exact located_pure _
  | none =>
    apply (located_takeIf _).bind
    intro word?
    cases word? with
    | some token => exact located_pure _
    | none => exact located_unexpected _

theorem located_negation : Parser.Located source (negation limits inner) := by
  have hnegated : Parser.Located source (negated inner) := by
    apply (located_expect _).bind
    intro _
    exact hinner.operand.map _
  apply located_current.bind
  intro _
  exact .ite (hnegated.nested _) (located_primary hinner)

theorem located_disjunction : Parser.Located source (disjunction limits inner) := by
  have hconjunctionSign : Parser.Located source conjunctionSign := by
    apply (located_acceptWord _).bind
    intro _
    refine .ite ?_ ?_
    · exact located_pure _
    · exact located_current.map _
  have hconjunction : Parser.Located source (conjunction limits inner) :=
    (located_negation hinner).chain hconjunctionSign fun _ _ _ => Fault.checked_ok _
  exact hconjunction.chain ((located_acceptWord _).map _) fun _ _ _ => Fault.checked_ok _

end

theorem located_ofLevels (levels : Nat) : (ofLevels limits levels).Located source := by
  induction levels with
  | zero => exact ⟨located_failHere rfl, located_failHere rfl⟩
  | succ levels ih => exact ⟨located_disjunction ih, located_negation ih⟩

end SearchExpression.Grammar

theorem SearchExpression.located_parse (limits : Limits) :
    Located source (SearchExpression.parse limits) :=
  (Grammar.located_ofLevels _).whole

/-! ## Casts and selections -/

theorem StructuredType.located_parseCast? (schema : Schema) (referenced : StructuredType) :
    Located source (referenced.parseCast? schema) := by
  intro cursor
  apply (locates_takeIf _).bind
  intro found rest _ _ htoken
  cases found with
  | none => exact .pure trivial
  | some token =>
    obtain ⟨-, -, hspan⟩ := htoken token rfl
    dsimp only
    split
    · exact locates_throw fun _ => Fault.placedIn_of_span hspan.liesIn rfl
    · split
      · exact .pure trivial
      · exact locates_throw fun _ => Fault.placedIn_of_span hspan.liesIn rfl

theorem SelectSegment.located_parseProperty (schema : Schema) (property : Property) :
    Located source (SelectSegment.parseProperty schema property) := by
  rw [parseProperty]
  cases property.complexType? with
  | none => exact located_pure _
  | some type =>
    apply (located_accept _).bind
    intro _
    refine .ite ?_ (located_pure _)
    apply (type.located_parseCast? schema).bind
    intro cast?
    cases cast? with
    | none => exact located_pure _
    | some cast => exact (located_accept _).map _

theorem SelectSegment.located_parse (schema : Schema) (owner : StructuredType) :
    Located source (SelectSegment.parse schema owner) := by
  intro cursor
  apply (locates_expect _).bind
  rintro token rest _ _ ⟨_, _, hspan⟩
  cases schema.property? owner token.text with
  | some property => exact located_parseProperty schema property rest
  | none =>
    cases schema.navigation? owner token.text with
    | none => exact locates_throw fun _ => Fault.placedIn_of_span hspan.liesIn rfl
    | some navigation =>
      exact located_current.bind (fun _ => .ite (located_failHere rfl) (located_pure _)) rest

theorem SelectItem.located_parse (schema : Schema) (owner : StructuredType) :
    Located source (SelectItem.parse schema owner) := by
  have hpath : ∀ owner, Located source (unfold (SelectSegment.parse schema) owner) :=
    .unfold (SelectSegment.located_parse schema)
  apply (located_accept _).bind
  intro _
  refine .ite (located_pure _) ?_
  apply (owner.located_parseCast? schema).bind
  intro cast?
  cases cast? with
  | none => exact (hpath owner).map _
  | some cast =>
    apply (located_expect _).bind
    intro _
    exact (hpath cast).map _

theorem Select.located_parse (schema : Schema) (owner : StructuredType) :
    Located source (Select.parse schema owner) :=
  (SelectItem.located_parse schema owner).separated .comma

/-! ## Numbers -/

theorem Parser.located_wholeNumber (option : String) (zeroAllowed : Bool) :
    Located source (wholeNumber option zeroAllowed) := by
  intro cursor
  apply (locates_expect _).bind
  rintro token rest _ _ ⟨_, _, hspan⟩
  split
  · exact .pure trivial
  · exact locates_throw fun _ => Fault.placedIn_of_span hspan.liesIn rfl

theorem Levels.located_parse : Located source Levels.parse := by
  apply (located_accept _).bind
  intro _
  refine .ite ?_ ?_
  · exact located_pure _
  · exact (located_wholeNumber _ _).map _

/-! ## Options in general -/

variable {Expansion : Type}

theorem SystemOption.located_parseValue {scope : Scope}
    {expansion : StructuredType → Parser Expansion}
    (hexpansion : ∀ owner, Located source (expansion owner)) (owner : StructuredType)
    (kind : OptionKind) : Located source (parseValue scope expansion owner kind) := by
  cases kind with
  | count => exact ((located_expect _).map _).map _
  | expand => exact (hexpansion owner).map _
  | filter => exact Expression.located_parseFilter.map _
  | levels => exact Levels.located_parse.map _
  | orderBy => exact OrderBy.located_parse.map _
  | search => exact (SearchExpression.located_parse _).map _
  | select => exact (Select.located_parse _ owner).map _
  | skip | top => exact (located_wholeNumber _ _).map _

namespace OptionSet

/-- The keywords of the options so far stand before a place of the text. -/
def Gathered.StandsBefore (source : String) (gathered : Gathered Expansion) (stop : Nat) : Prop :=
  ∀ place ∈ gathered.places, place.2.Between source 0 stop

theorem Gathered.StandsBefore.mono {gathered : Gathered Expansion} {before behind : Nat}
    (hgathered : gathered.StandsBefore source before) (hle : before ≤ behind) :
    gathered.StandsBefore source behind := by
  intro place hplace
  exact (hgathered place hplace).mono (Nat.le_refl 0) hle

/-- Whatever is reported of a keyword behind them is in the text, the first place before the second. -/
theorem Gathered.StandsBefore.placedIn_repetition {gathered : Gathered Expansion} {keyword : Token}
    {start stop : Nat} (hgathered : gathered.StandsBefore source start)
    (hkeyword : keyword.span.Between source start stop) (kind : OptionKind) :
    (gathered.repetition kind keyword).PlacedIn source := by
  have hplaced : Fault.PlacedIn { problem := .doubleOption kind, span := keyword.span } source :=
    Fault.placedIn_of_span hkeyword.liesIn rfl
  rw [Gathered.repetition]
  split
  · next first hlookup =>
    obtain ⟨before, behind, hplaces, -⟩ := List.lookup_eq_some_iff.mp hlookup
    have hfirst := hgathered (kind, first) (by simp [hplaces])
    exact hplaced.withRelated hfirst.liesIn (Nat.le_trans hfirst.le_last hkeyword.first_le) _
  · exact hplaced

variable {value : OptionKind → Parser (SystemOption Expansion)}
  (hvalue : ∀ kind, Located source (value kind)) (context : OptionContext)

include hvalue

/-- A repeated option points at its own keyword and, before that, at the first one. -/
theorem locates_parseOption {cursor : Cursor} {gathered : Gathered Expansion}
    (hgathered : gathered.StandsBefore source cursor.offset) :
    Locates source cursor (parseOption value context gathered) (Gathered.StandsBefore source) := by
  apply Locates.current_bind
  intro _
  cases allowedKind? context cursor.current with
  | none => exact locates_failHere fun hkey => nomatch hkey
  | some kind =>
    apply locates_next.bind
    rintro keyword first _ hfirst ⟨hkeyword, _, hspan⟩
    apply (located_expect _ first).bind
    intro _ second _ hsecond _
    apply (hvalue kind second).bind
    intro option third _ hthird _
    rw [hkeyword] at hspan
    split
    · apply Locates.pure
      intro place hplace
      rcases List.mem_cons.mp hplace with rfl | hplace
      · exact hspan.mono (Nat.zero_le _) (Nat.le_trans hsecond hthird)
      · have hbehind := Nat.le_trans hfirst (Nat.le_trans hsecond hthird)
        exact (hgathered place hplace).mono (Nat.le_refl 0) hbehind
    · apply locates_throw
      intro _
      exact hgathered.placedIn_repetition hspan kind

theorem located_parse : Located source (OptionSet.parse value context) := by
  apply (located_accept _).bind
  intro opened
  apply Located.ite
  · have hlist : Located source (separatedFrom (parseOption value context) .semicolon {}) := by
      intro cursor
      have hloop : Locates source cursor (separatedFrom (parseOption value context) .semicolon {})
          (Gathered.StandsBefore source) := by
        apply Locates.separatedFrom .semicolon
        · intro _ _ _ hle hgathered
          exact hgathered.mono hle
        · intro _ _ hgathered
          exact locates_parseOption hvalue context hgathered
        · intro _ hplace
          cases hplace
      exact hloop.mono fun _ _ _ _ => trivial
    apply hlist.bind
    intro gathered
    exact (located_expect _).map _
  · exact located_pure _

end OptionSet

end ODataOptions
