import ODataOptions.Proofs.Expand.Limits
import ODataOptions.Proofs.Fault
import ODataOptions.Proofs.Schema.Lookup
import ODataOptions.Query.Parser

/-!
# Queries under different limits

Limits only reject.  A query that is read under some limits is read to the same content under larger
ones, and what fails for any other reason than a limit fails in the same way.
-/

namespace ODataOptions

open ODataOptions.Parser

/-- Limits are compared one by one. -/
instance : LE Limits :=
  ⟨fun small large => small.expandDepth ≤ large.expandDepth ∧ small.queryLength ≤ large.queryLength ∧
    small.expressionDepth ≤ large.expressionDepth⟩

instance (small large : Limits) : Decidable (small ≤ large) :=
  inferInstanceAs (Decidable (_ ∧ _ ∧ _))

/-- Either a limit leads to the strict result, or the lax one is the same. -/
def Fault.Relaxes {α : Type} (strict lax : Except Fault α) : Prop :=
  (∃ fault, strict = .error fault ∧ fault.key ∈ FaultKey.ofLimits) ∨ lax = strict

namespace Fault.Relaxes

variable {α β : Type}

theorem bind {strict lax : Except Fault β} {next next' : β → Except Fault α}
    (hfirst : Fault.Relaxes strict lax) (hnext : ∀ value, Fault.Relaxes (next value) (next' value)) :
    Fault.Relaxes (strict >>= next) (lax >>= next') := by
  rcases hfirst with ⟨fault, rfl, hlimit⟩ | rfl
  · exact .inl ⟨fault, rfl, hlimit⟩
  · cases lax with
    | error => exact .inr rfl
    | ok value => exact hnext value

theorem foldlM {σ : Type} {step step' : σ → α → Except Fault σ}
    (hstep : ∀ state value, Fault.Relaxes (step state value) (step' state value)) (values : List α)
    (state : σ) : Fault.Relaxes (values.foldlM step state) (values.foldlM step' state) := by
  induction values generalizing state with
  | nil => exact .inr rfl
  | cons value values ih =>
    rw [List.foldlM_cons, List.foldlM_cons]
    exact (hstep state value).bind ih

theorem onTokens {strict lax : Parser α} (hparser : Parser.Relaxes strict lax) (tokens : List Token) :
    Fault.Relaxes (strict.onTokens tokens) (lax.onTokens tokens) := by
  rw [Parser.onTokens, Parser.onTokens]
  rcases hparser (.ofTokens tokens) with ⟨fault, rest, hrun, hlimit⟩ | hsame
  · rw [EStateM.run, hrun]
    exact .inl ⟨fault, rfl, hlimit⟩
  · rw [EStateM.run, EStateM.run, hsame]
    exact .inr rfl

end Fault.Relaxes

section

variable {scope : Scope} {limits : Limits} (hle : scope.limits ≤ limits) (owner : StructuredType)

include hle

theorem SystemOption.relaxes_read (kind : OptionKind) (value : String) :
    Fault.Relaxes (SystemOption.read scope owner kind value)
      (SystemOption.read (scope.withLimits limits) owner kind value) := by
  have hexpansion := fun owner => Expand.relaxes_parseWithin hle.2.2 hle.1 owner
  have hvalue := SystemOption.relaxes_parseValue hle.2.2 hexpansion owner kind
  apply Fault.Relaxes.bind (.inr rfl)
  intro tokens
  by_cases hkind : kind = .levels
  · exact .inr (by rw [if_pos hkind, if_pos hkind]; rfl)
  · rw [if_neg hkind, if_neg hkind]
    exact Fault.Relaxes.onTokens (hvalue.before _) tokens

theorem Query.relaxes_addOption (options : OptionSet Expand) (part : QueryPart) :
    Fault.Relaxes (Query.addOption scope owner options part)
      (Query.addOption (scope.withLimits limits) owner options part) := by
  rw [Query.addOption, Query.addOption]
  cases OptionKind.ofKeyword? part.name with
  | none => exact .inr rfl
  | some kind =>
    apply (SystemOption.relaxes_read hle owner kind part.value).bind
    intro _
    exact .inr rfl

end

namespace Query

variable {strict lax : Limits}

theorem relaxes_read (schema : Schema) (owner : StructuredType) (text : String) (hle : strict ≤ lax) :
    Fault.Relaxes (read schema strict owner text) (read schema lax owner text) := by
  rw [read, read]
  by_cases hlength : strict.queryLength < text.utf8ByteSize
  · rw [if_pos hlength]
    exact .inl ⟨_, rfl, .head _⟩
  · have hlength' : ¬ lax.queryLength < text.utf8ByteSize := fun h =>
      hlength (Nat.lt_of_le_of_lt hle.2.1 h)
    rw [if_neg hlength, if_neg hlength']
    have hoption : ∀ aliases options part, Fault.Relaxes
        (addOption { schema, aliases, limits := strict } owner options part)
        (addOption { schema, aliases, limits := lax } owner options part) := by
      intro aliases
      have hscope : (⟨schema, aliases, strict⟩ : Scope).limits ≤ lax := hle
      exact relaxes_addOption hscope owner
    apply (Fault.Relaxes.foldlM (hoption _) _ ∅).bind
    intro _
    exact .inr rfl

/-- Limits only reject: a query that is read under the smaller limits is read to the same content under
the larger ones, a fault that is none of theirs stays the same, and where only the smaller ones refuse a
query, the fault is that one of them is exceeded. -/
theorem read_of_limits_le (schema : Schema) (owner : StructuredType) (text : String)
    (small large : Limits) (hle : small ≤ large) :
    (∀ query, read schema small owner text = .ok query →
      read schema large owner text = .ok query) ∧
    (∀ fault, read schema small owner text = .error fault →
      fault.key ∉ [.queryTooLong, .expandTooDeep, .expressionTooDeep] →
      read schema large owner text = .error fault) ∧
    ∀ query fault, read schema large owner text = .ok query →
      read schema small owner text = .error fault →
      fault.key ∈ [.queryTooLong, .expandTooDeep, .expressionTooDeep] := by
  rcases relaxes_read schema owner text hle with ⟨fault, hsmall, hlimit⟩ | hsame
  · rw [hsmall]
    refine ⟨fun _ hok => (by cases hok), ?_, ?_⟩
    · rintro _ ⟨⟩ hother
      exact absurd hlimit hother
    · rintro _ _ - ⟨⟩
      exact hlimit
  · rw [hsame]
    refine ⟨fun _ hok => hok, fun _ herror _ => herror, fun _ _ hok herror => ?_⟩
    rw [hok] at herror
    cases herror

theorem read_of_limits_le_shop :
    (∃ query, read .shop { expandDepth := 1 } .shopCustomer "$expand=Orders&$top=2" = .ok query ∧
      read .shop {} .shopCustomer "$expand=Orders&$top=2" = .ok query) ∧
    ∃ fault, read .shop { expandDepth := 1 } .shopCustomer "$expand=Orders($expand=Customer)" =
      .error fault ∧ fault.key ∈ [.queryTooLong, .expandTooDeep, .expressionTooDeep] := by
  constructor
  · obtain ⟨haccepted, -⟩ := read_of_limits_le .shop .shopCustomer "$expand=Orders&$top=2"
      { expandDepth := 1 } {} (by decide)
    obtain ⟨query, hsmall⟩ := Fault.exists_ok_of_isOk (by decide +kernel : (read .shop
      { expandDepth := 1 } .shopCustomer "$expand=Orders&$top=2").isOk = true)
    exact ⟨query, hsmall, haccepted query hsmall⟩
  · obtain ⟨-, -, hrefused⟩ := read_of_limits_le .shop .shopCustomer
      "$expand=Orders($expand=Customer)" { expandDepth := 1 } {} (by decide)
    obtain ⟨query, hlarge⟩ := Fault.exists_ok_of_isOk (by decide +kernel : (read .shop {}
      .shopCustomer "$expand=Orders($expand=Customer)").isOk = true)
    obtain ⟨fault, hsmall⟩ := Fault.exists_error_of_isOk (by decide +kernel : (read .shop
      { expandDepth := 1 } .shopCustomer "$expand=Orders($expand=Customer)").isOk = false)
    exact ⟨fault, hsmall, hrefused query fault hlarge hsmall⟩

end Query

end ODataOptions
