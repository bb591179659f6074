import ODataOptions.Proofs.Expand.Tracks
import ODataOptions.Proofs.NameTable

/-!
# Alias definitions can be dropped

What is known of a parameter alias can only make a query fail.  Without its definition the alias has no
known class and fits everywhere, so a query that was accepted still is, and as the same tree.
-/

namespace ODataOptions

open ODataOptions.Parser

namespace Scope

variable (scope : Scope)

/-- Where no alias is defined, every class that was known is lost. -/
theorem parameterType_dropped {aliases' : AliasTable}
    (hdropped : aliases'.entries ⊆ scope.aliases.entries) (name : String) :
    { scope with aliases := aliases' : Scope }.parameterType name = scope.parameterType name ∨
      { scope with aliases := aliases' : Scope }.parameterType name = .untyped := by
  cases hfound : aliases'.find? name with
  | none =>
    right
    rw [parameterType, hfound]
  | some definition =>
    left
    have hname : nameOf definition = name := NameTable.nameOf_of_find? hfound
    have hmem : definition ∈ aliases'.entries := List.mem_of_find?_eq_some hfound
    have hkept : scope.aliases.find? name = some definition :=
      hname ▸ NameTable.mem_entries_iff.mp (hdropped hmem)
    rw [parameterType, parameterType, hfound, hkept]

/-- The second run is over the same tokens, with fewer aliases. -/
def dropping {aliases' : AliasTable} (hdropped : aliases'.entries ⊆ scope.aliases.entries) :
    ScopedComparison where
  strict := False
  Tokens := Eq
  Places := Eq
  span htoken := congrArg Token.span htoken
  cover hfirst hlast := congrArg₂ Span.cover hfirst hlast
  endOfInput_iff htoken := by rw [htoken]
  scope := scope
  aliases' := aliases'
  inlining := ∅
  gradual := True
  respells := by
    rintro token _ rfl
    rw [Inlining.apply_empty]
    exact .refl _
  parameterType name := (scope.parameterType_dropped hdropped name).imp_right fun hlost => ⟨trivial, hlost⟩
  strict_inlining := False.elim
  strict_gradual := False.elim

variable {aliases' : AliasTable} (hdropped : aliases'.entries ⊆ scope.aliases.entries)
  {cursor cursor' : Cursor}

/-- Where aliases are dropped, the tokens stay, so that cursors correspond only to themselves. -/
theorem dropping_cursors_iff : (scope.dropping hdropped).Cursors cursor cursor' ↔ cursor = cursor' := by
  constructor
  · intro hcursors
    have hconsumed : List.Forall₂ Eq cursor.consumed cursor'.consumed := hcursors.consumed
    have hahead : List.Forall₂ Eq cursor.ahead cursor'.ahead := hcursors.ahead
    have hdepth := hcursors.depth
    rw [List.forall₂_eq_eq_eq] at hconsumed hahead
    cases cursor
    cases cursor'
    cases hconsumed
    cases hahead
    cases hdepth
    rfl
  · rintro rfl
    have hsame : ∀ tokens, List.Forall₂ (scope.dropping hdropped).Tokens tokens tokens :=
      fun _ => List.forall₂_same.mpr fun _ _ => rfl
    exact ⟨hsame _, hsame _, rfl, rfl⟩

end Scope

/-- The aliases decide whether a parser accepts, but not what it makes of the tokens. -/
structure Parser.Gradual {α : Type} (parser : AliasTable → Parser α) : Prop where
  /-- What is accepted is accepted with fewer aliases too, with the same value, and the parser stops at
  the same token. -/
  drop : ∀ {aliases aliases' : AliasTable}, aliases'.entries ⊆ aliases.entries →
    ∀ {cursor rest : Cursor} {value : α}, parser aliases cursor = .ok value rest →
      parser aliases' cursor = .ok value rest
  /-- Whatever the aliases are, the value is the same. -/
  unique : ∀ {aliases aliases' : AliasTable} {cursor rest rest' : Cursor} {value value' : α},
    parser aliases cursor = .ok value rest → parser aliases' cursor = .ok value' rest' →
      value = value' ∧ rest = rest'

namespace Parser.Gradual

/-- Without any aliases, a parser that can do with fewer has the value that it has with them. -/
theorem of_drop {α : Type} {parser : AliasTable → Parser α}
    (hdrop : ∀ {aliases aliases' : AliasTable}, aliases'.entries ⊆ aliases.entries →
      ∀ {cursor rest : Cursor} {value : α}, parser aliases cursor = .ok value rest →
        parser aliases' cursor = .ok value rest) : Gradual parser := by
  refine ⟨hdrop, ?_⟩
  intro aliases aliases' cursor rest rest' value value' hrun hrun'
  have hempty : parser ∅ cursor = .ok value rest := hdrop (List.nil_subset _) hrun
  rw [hdrop (List.nil_subset _) hrun'] at hempty
  cases hempty
  exact ⟨rfl, rfl⟩

/-- A parser that keeps up with itself under fewer aliases yields one tree whatever the aliases are.
-/
theorem of_tracks {α : Type} {limits : Limits} {schema : Schema} (parser : Scope → Parser α)
    (htracks : ∀ C : ScopedComparison, (∀ name, C.inlining.token? name = none) →
      C.Tracks Eq (parser C.scope) (parser C.scope')) :
    Gradual fun aliases => parser { schema, aliases, limits } := by
  apply of_drop
  intro aliases aliases' hdropped cursor rest value hrun
  have hcursors := (Scope.dropping_cursors_iff { schema, aliases, limits } hdropped).mpr
    (Eq.refl cursor)
  obtain ⟨value', rest', hrun', rfl, hrest⟩ :=
    (htracks (Scope.dropping _ hdropped) (fun _ => rfl) hcursors).exists_of_ok hrun
  rw [Scope.dropping_cursors_iff] at hrest
  rw [hrest]
  exact hrun'

end Parser.Gradual

/-- No definition of a parameter alias helps a filter, a list of sort keys or an expansion to be
accepted, and none changes the tree. -/
theorem gradual_of_aliases (schema : Schema) (limits : Limits) (owner : StructuredType) :
    Gradual (fun aliases => Expression.parseFilter { schema, aliases, limits } owner) ∧
      Gradual (fun aliases => OrderBy.parse { schema, aliases, limits } owner) ∧
      Gradual (fun aliases => Expand.parse { schema, aliases, limits } owner) :=
  ⟨.of_tracks (Expression.parseFilter · owner) fun _ hplain =>
      ScopedComparison.tracks_parseFilter hplain owner,
    .of_tracks (OrderBy.parse · owner) fun _ hplain =>
      ScopedComparison.tracks_parseOrderBy hplain owner,
    .of_tracks (Expand.parse · owner) fun _ hplain =>
      ScopedComparison.tracks_parseExpand hplain owner⟩

/-- A filter by a number under a name stays what it is when the name is not defined. -/
theorem gradual_of_aliases_shop :
    ∃ filter rest,
      Expression.parseFilter { schema := .shop, aliases := .ofList [⟨"limit", "18"⟩] } .shopCustomer
        (.ofTokens (tokens "Age gt @limit")) = .ok filter rest ∧
      Expression.parseFilter { schema := .shop } .shopCustomer
        (.ofTokens (tokens "Age gt @limit")) = .ok filter rest := by
  have hdropped : (∅ : AliasTable).entries ⊆ (NameTable.ofList [⟨"limit", "18"⟩] : AliasTable).entries :=
    List.nil_subset _
  obtain ⟨hfilter, -⟩ := gradual_of_aliases .shop {} .shopCustomer
  exact ⟨_, _, rfl, hfilter.drop hdropped rfl⟩

end ODataOptions
