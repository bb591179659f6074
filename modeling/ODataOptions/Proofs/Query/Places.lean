import ODataOptions.Proofs.Expand.Places
import ODataOptions.Proofs.Query.RoundTrip

/-!
# Where faults of queries are found

A fault of a value points into the value.  A fault of a name, which is unknown or given for the second
time, covers as many bytes as the name has, whatever the value is.  So it reaches beyond the end of a
value that is shorter than the name.
-/

namespace ODataOptions

open ODataOptions.Parser

/-- The values of options point into their text with their faults. -/
theorem SystemOption.checked_read (scope : Scope) (owner : StructuredType) (kind : OptionKind)
    (value : String) : Fault.Checked value (SystemOption.read scope owner kind value) := by
  apply (checked_tokensOrFault value).bind
  intro found hfound
  rw [eq_tokens_of_tokensOrFault hfound]
  have hwhole : (Span.ofLength value.utf8ByteSize).Marks value value :=
    ⟨"", "", by simp, by simp [Span.ofLength]⟩
  split
  · exact Fault.checked_error (Fault.placedIn_of_span hwhole.liesIn rfl)
  · have hvalue : Located value (parseValue scope (Expand.parse scope) owner kind) :=
      located_parseValue (Expand.located_parse scope) owner kind
    exact (hvalue.complete kind).onTokens

namespace Query

variable {scope : Scope} {owner : StructuredType} {part : QueryPart} {fault : Fault}

/-- The options of a query are collected up to the part, and it is the first one that cannot be
added. -/
def FailsAt (scope : Scope) (owner : StructuredType) (parts : List QueryPart) (part : QueryPart)
    (fault : Fault) : Prop :=
  ∃ before after options, parts.filter QueryPart.isSystem = before ++ part :: after ∧
    before.foldlM (addOption scope owner) ∅ = .ok options ∧
    addOption scope owner options part = .error fault

/-- Nothing is wrong with the value of the part, as far as its name tells how to read it. -/
def NameAtFault (scope : Scope) (owner : StructuredType) (part : QueryPart) : Prop :=
  ∀ kind, OptionKind.ofKeyword? part.name = some kind →
    ∃ option, SystemOption.read scope owner kind part.value = .ok option

/-- An option that cannot be added is refused for its name or for its value. -/
theorem addOption_error {options : OptionSet Expand}
    (hfails : addOption scope owner options part = .error fault) :
    (NameAtFault scope owner part ∧ fault.span = .ofLength part.name.utf8ByteSize) ∨
      (¬ NameAtFault scope owner part ∧ fault.PlacedIn part.value) := by
  rw [addOption] at hfails
  cases hname : OptionKind.ofKeyword? part.name with
  | none =>
    rw [hname] at hfails
    cases hfails
    refine .inl ⟨fun kind hkind => ?_, rfl⟩
    rw [hname] at hkind
    cases hkind
  | some kind =>
    rw [hname] at hfails
    rcases Fault.bind_eq_error_iff.mp hfails with hread | ⟨option, hread, hinsert⟩
    · refine .inr ⟨fun hgood => ?_, SystemOption.checked_read _ _ _ _ _ hread⟩
      obtain ⟨option, hoption⟩ := hgood kind hname
      rw [hread] at hoption
      cases hoption
    · refine .inl ⟨fun other hother => ?_, ?_⟩
      · rw [hname] at hother
        cases hother
        exact ⟨option, hread⟩
      · split at hinsert <;> cases hinsert
        rfl

/-- A fault of a query is in order, and within the value of the part that fails exactly if the name of
this part is not at fault or no longer than the value. -/
theorem read_error_within_iff {schema : Schema} {limits : Limits} {query : String}
    (hfails : read schema limits owner query = .error fault) (hkey : fault.key ≠ .queryTooLong) :
    let parts := QueryPart.listOf query
    let aliases := NameTable.ofList (parts.filterMap QueryPart.parameterAlias?)
    let scope : Scope := { schema, aliases, limits }
    ∃ part, FailsAt scope owner parts part fault ∧
      fault.span.start ≤ fault.span.stop ∧
      (fault.span.stop ≤ part.value.utf8ByteSize ↔
        (NameAtFault scope owner part → part.name.utf8ByteSize ≤ part.value.utf8ByteSize)) ∧
      (¬ NameAtFault scope owner part → fault.PlacedIn part.value) := by
  intro parts aliases scope
  have hfold : (parts.filter QueryPart.isSystem).foldlM (addOption scope owner) ∅ = .error fault := by
    rw [read] at hfails
    split at hfails
    · cases hfails
      exact absurd rfl hkey
    · rcases Fault.bind_eq_error_iff.mp hfails with hfold | ⟨system, -, hquery⟩
      · exact hfold
      · cases hquery
  obtain ⟨before, part, after, options, hparts, hbefore, hadd⟩ :=
    Fault.exists_of_foldlM_eq_error hfold
  refine ⟨part, ⟨before, after, options, hparts, hbefore, hadd⟩, ?_⟩
  rcases addOption_error hadd with ⟨hname, hspan⟩ | ⟨hvalue, hplaced⟩
  · rw [hspan]
    exact ⟨Nat.zero_le _, (imp_iff_right hname).symm, fun hvalue => absurd hname hvalue⟩
  · have hlies := hplaced.span_liesIn
    exact ⟨hlies.ordered, iff_of_true hlies.inside fun hname => absurd hname hvalue,
      fun _ => hplaced⟩

/-- A text of two bytes for one letter breaks off behind an operator. -/
theorem read_error_within_iff_shop :
    ∃ fault, read .shop {} .shopCustomer "$top=1&$filter=Name eq 'é' and" = .error fault ∧
      fault.key ≠ .queryTooLong ∧
      ∃ scope part, FailsAt scope .shopCustomer
          (QueryPart.listOf "$top=1&$filter=Name eq 'é' and") part fault ∧
        fault.span.start ≤ fault.span.stop ∧
        (fault.span.stop ≤ part.value.utf8ByteSize ↔
          (NameAtFault scope .shopCustomer part →
            part.name.utf8ByteSize ≤ part.value.utf8ByteSize)) := by
  have hfails : read .shop {} .shopCustomer "$top=1&$filter=Name eq 'é' and" =
      .error ⟨.unexpected "expression" (.endOfInput 16), .point 16, none⟩ := by
    decide +kernel
  have hkey : FaultKey.unexpectedToken ≠ .queryTooLong := by decide
  obtain ⟨part, hpart, horder, hwithin, -⟩ := read_error_within_iff hfails hkey
  exact ⟨_, hfails, hkey, _, part, hpart, horder, hwithin⟩

/-- An unknown name and one that is given twice are longer than every value of their queries. -/
theorem read_error_beyond_values :
    (∃ fault, read .shop {} .shopCustomer "$frobnicate=1" = .error fault ∧
      fault.key ≠ .queryTooLong ∧
      ∀ part ∈ QueryPart.listOf "$frobnicate=1", part.value.utf8ByteSize < fault.span.stop) ∧
    ∃ fault, read .shop {} .shopCustomer "$top=1&$TOP=2" = .error fault ∧
      fault.key ≠ .queryTooLong ∧
      ∀ part ∈ QueryPart.listOf "$top=1&$TOP=2", part.value.utf8ByteSize < fault.span.stop := by
  have hunknown : read .shop {} .shopCustomer "$frobnicate=1" =
      .error ⟨.unknownOption "$frobnicate", ⟨0, 11⟩, none⟩ := by
    decide +kernel
  have hdouble : read .shop {} .shopCustomer "$top=1&$TOP=2" =
      .error ⟨.doubleOption .top, ⟨0, 4⟩, none⟩ := by
    decide +kernel
  exact ⟨⟨_, hunknown, by decide, by decide +kernel⟩, ⟨_, hdouble, by decide, by decide +kernel⟩⟩

end Query

end ODataOptions
