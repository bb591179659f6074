import ODataOptions.Expand.Read
import ODataOptions.Proofs.Expand.Completeness
import ODataOptions.Proofs.Expand.Soundness
import ODataOptions.Proofs.Parser.Whole

/-!
# Expansions and their canonical texts

A valid expansion is read back from its canonical text.  What is parsed from a text is valid, so
reading a text, printing what was read and reading that leads to the same expansion.  This is so
exactly where the limit of levels admits the canonical text, which has a level for each operation, and
where no path in it is mistaken for a negation.
-/

namespace ODataOptions

open ODataOptions.Parser

/-- The canonical text of a valid expansion has no faults, and the expansion is parsed from its tokens,
up to the end of the input.  The limits must admit the levels of the expansion and of the expressions
and searches in it, and no path in these may be mistaken for a negation. -/
theorem Expand.parse_print (scope : Scope) (owner : StructuredType) (levels : Nat) (expand : Expand)
    (hexpand : expand.ValidWithin scope Word.IsToken levels owner)
    (hlevels : levels ≤ scope.limits.expandDepth)
    (hfits : ∀ criterion ∈ expand.criteria, criterion.Fits scope.limits.expressionDepth) :
    invalidParts expand.print = [] ∧
      ∃ rest : Cursor, rest.current.kind = .endOfInput ∧
        Expand.parse scope owner (.ofTokens (tokens expand.print)) = .ok expand rest := by
  have hvalid := hexpand.mono hlevels
  have hwritten := hvalid.writes.written
  obtain ⟨rest, hend, hok, -⟩ := (reads_parseWithin hvalid).on_tokens hwritten
  obtain ⟨_, hrun, rfl⟩ := hok hfits
  exact ⟨hwritten.tokens.1, rest, hend, hrun⟩

theorem Expand.parse_print_shop :
    ∃ expand : Expand, expand.print = "Address/Region/$ref,Orders($filter=(Total gt 2);$top=1)" ∧
      invalidParts expand.print = [] ∧
      ∃ rest : Cursor, rest.current.kind = .endOfInput ∧
        Expand.parse { schema := .shop } .shopCustomer (.ofTokens (tokens expand.print)) =
          .ok expand rest := by
  have hread : ∃ expand : Expand,
      expand.print = "Address/Region/$ref,Orders($filter=(Total gt 2);$top=1)" ∧
      Expand.read .shop .shopCustomer "Address/Region/$ref,Orders($top=1;$filter=Total gt 2)" =
        .ok expand ∧ ∀ criterion ∈ expand.criteria, criterion.Fits 32 := by
    refine ⟨_, ?_, rfl, ?_⟩
    · decide +kernel
    · decide
  obtain ⟨expand, hprint, hread, hfits⟩ := hread
  have hvalid : expand.ValidWithin { schema := .shop } Word.IsToken 16 .shopCustomer :=
    (yields_parseWithin _ _ _ _).onText hread
  exact ⟨expand, hprint, Expand.parse_print { schema := .shop } .shopCustomer 16 expand hvalid
    (Nat.le_refl 16) hfits⟩

/-- An expansion that was read is read again from its canonical text exactly if the limit of levels
admits the expressions and searches in it, as they are written there. -/
theorem Expand.read_print_iff (schema : Schema) (owner : StructuredType) (text : String)
    (expand : Expand) (hread : Expand.read schema owner text = .ok expand) :
    Expand.read schema owner expand.print = .ok expand ↔
      ∀ criterion ∈ expand.criteria, criterion.Fits ({} : Limits).expressionDepth := by
  have hvalid : expand.ValidWithin { schema } Word.IsToken ({ schema } : Scope).limits.expandDepth
      owner :=
    (yields_parseWithin _ _ _ _).onText hread
  exact (reads_parseWithin hvalid).onText_iff hvalid.writes.written

theorem Expand.read_print_shop :
    ∃ expand, Expand.read .shop .shopCustomer "Orders($search=a b;$filter=Total gt 2)" = .ok expand ∧
      Expand.read .shop .shopCustomer expand.print = .ok expand := by
  have hread : ∃ expand, Expand.read .shop .shopCustomer "Orders($search=a b;$filter=Total gt 2)" =
      .ok expand ∧ ∀ criterion ∈ expand.criteria, criterion.Fits 32 := by
    refine ⟨_, rfl, ?_⟩
    decide
  obtain ⟨expand, hread, hfits⟩ := hread
  exact ⟨expand, hread, (Expand.read_print_iff .shop .shopCustomer _ expand hread).mpr hfits⟩

/-- Behind an opening parenthesis, the property `not` is mistaken for a negation. -/
theorem Expand.read_print_mistaken :
    ∃ expand, Expand.read .odd .oddType "Next($filter=1 lt not add 2)" = .ok expand ∧
      Expand.read .odd .oddType expand.print ≠ .ok expand := by
  have hread : ∃ expand, Expand.read .odd .oddType "Next($filter=1 lt not add 2)" = .ok expand ∧
      (Expand.read .odd .oddType expand.print).isOk = false := ⟨_, rfl, rfl⟩
  obtain ⟨expand, hread, hfails⟩ := hread
  refine ⟨expand, hread, fun hagain => ?_⟩
  rw [hagain] at hfails
  cases hfails

end ODataOptions
