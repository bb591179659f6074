import ODataOptions.Proofs.Expand.Limits
import ODataOptions.Proofs.Query.RoundTrip
import ODataOptions.Proofs.SystemOption.Enclosed
import ODataOptions.Proofs.Token.Delimited

/-!
# Options inside and outside of parentheses

An option means the same in a query and, alone in parentheses, behind a path that is expanded.  The value
is parsed there from the same words, before the closing parenthesis instead of the end.  An expansion
among the options of an item is one level further in, so one more level is needed for it.
-/

namespace ODataOptions

open ODataOptions.Parser

/-- The scope where an option of the kind may hold in parentheses what it may hold outside: an expansion
may have as many levels there only if one more level is admitted. -/
def Scope.around (scope : Scope) (kind : OptionKind) : Scope :=
  if kind = .expand then
    scope.withLimits { scope.limits with expandDepth := scope.limits.expandDepth + 1 }
  else scope

/-- Where limits do not stop the strict parser, the lax one reads the same words. -/
theorem Parser.Relaxes.reads {α : Type} {strict lax : Parser α} (hrelaxes : Relaxes strict lax)
    {depth : Nat} {words : List Word} {follow : Word → Prop} {P : α → Prop}
    (hreads : Reads strict depth words follow True P) : Reads lax depth words follow True P := by
  intro cursor rest hdepth hpasses hfollow
  refine ⟨?_, fun h => absurd trivial h⟩
  intro _
  obtain ⟨value, hrun, hvalue⟩ := (hreads hdepth hpasses hfollow).1 trivial
  refine ⟨value, ?_, hvalue⟩
  rcases hrelaxes cursor with ⟨fault, last, herror, -⟩ | hsame
  · rw [herror] at hrun
    cases hrun
  · rw [hsame, hrun]

namespace SystemOption

/-- Only the value of an expansion depends on the parser for expansions. -/
theorem parseValue_congr {Expansion : Type} (scope : Scope)
    (expansion expansion' : StructuredType → Parser Expansion) (owner : StructuredType)
    {kind : OptionKind} (hkind : kind ≠ .expand) :
    parseValue scope expansion owner kind = parseValue scope expansion' owner kind := by
  cases kind with
  | expand => exact absurd rfl hkind
  | _ => rfl

/-- The number of levels that expansions are parsed with is what counts, not their limit. -/
theorem relaxes_parseValue_within (scope : Scope) (limits : Limits)
    (hlimits : scope.limits.expressionDepth = limits.expressionDepth) (levels : Nat)
    (owner : StructuredType) (kind : OptionKind) :
    Relaxes (parseValue scope (Expand.parseWithin scope levels) owner kind)
      (parseValue (scope.withLimits limits) (Expand.parseWithin (scope.withLimits limits) levels) owner
        kind) := by
  have hle := Nat.le_of_eq hlimits
  exact relaxes_parseValue hle (Expand.relaxes_parseWithin hle (Nat.le_refl levels)) owner kind

section

variable (scope : Scope) (owner : StructuredType) (kind : OptionKind) {words : List Word}
  {option : SystemOption Expand}

/-- The value of an option is parsed alike inside and outside of parentheses. -/
theorem reads_around_iff :
    Reads (parseValue (scope.around kind)
        (Expand.parseWithin (scope.around kind) ((scope.around kind).limits.expandDepth - 1)) owner kind)
        0 words Word.EndsValue True (· = option) ↔
      Reads (parseValue scope (Expand.parse scope) owner kind) 0 words Word.EndsValue True
        (· = option) := by
  by_cases hkind : kind = .expand
  · subst hkind
    have hinside := relaxes_parseValue_within scope (scope.around .expand).limits rfl
      scope.limits.expandDepth owner .expand
    have houtside := relaxes_parseValue_within (scope.around .expand) scope.limits rfl
      scope.limits.expandDepth owner .expand
    exact ⟨houtside.reads, hinside.reads⟩
  · have haround : scope.around kind = scope := if_neg hkind
    rw [haround, parseValue_congr scope _ (Expand.parse scope) owner hkind]

end

/-- An option is read from the text of its value exactly if it is parsed alone in parentheses, with its
keyword before the text. -/
theorem read_eq_ok_iff_parseOptions (scope : Scope) (owner : StructuredType) (kind : OptionKind)
    (value : String) (option : SystemOption Expand) (hkind : kind ≠ .levels)
    (hfaultless : invalidParts value = []) :
    read scope owner kind value = .ok option ↔
      ∃ rest, Expand.parseOptions (scope.around kind) owner .plain
          (.ofTokens (tokens ("(" ++ kind.keyword ++ "=" ++ value ++ ")"))) =
            .ok (OptionSet.empty.set option) rest ∧
        rest.current.kind = .endOfInput := by
  obtain ⟨words, hwrites⟩ := exists_writes hfaultless
  have hkeyword : Writes kind.keyword [kind.word] := kind.isToken_word.writes (by simp) (by simp)
  have hbefore := (opens_openParen.append_writes hkeyword).append_opens delimits_equals opens_equals
  have htext := (hbefore.append_writes hwrites).append_opens delimits_closeParen opens_closeParen
  obtain ⟨stop, hpasses, hstop⟩ := htext.writes.written.exists_passes
  have hmirrors : ∀ (scope : Scope) (levels : Nat) kind, Mirrors .value id
      (parseValue scope (Expand.parseWithin scope levels) owner kind)
      (parseValue scope (Expand.parseWithin scope levels) owner kind) :=
    fun scope levels => mirrors_parseValue scope (Expand.mirrors_parseWithin scope levels) owner
  have hkinds : ∀ (scope : Scope) (levels : Nat) kind, Yields (fun _ => True)
      (parseValue scope (Expand.parseWithin scope levels) owner kind) fun option => option.kind = kind :=
    fun scope levels kind => yields_kind scope _ owner kind
  have hallows : OptionContext.plain.allows kind = true := by cases kind <;> rfl
  calc read scope owner kind value = .ok option
    _ ↔ Reads (parseValue scope (Expand.parse scope) owner kind) 0 words Word.EndsValue True
          (· = option) := by
        rw [read_eq_onText hkind]
        exact (hmirrors scope _ kind).onText_eq_ok_iff_reads hwrites.written
    _ ↔ Reads (parseValue (scope.around kind)
          (Expand.parseWithin (scope.around kind) ((scope.around kind).limits.expandDepth - 1)) owner kind)
          0 words Word.EndsValue True (· = option) := (reads_around_iff scope owner kind).symm
    _ ↔ _ := (OptionSet.parse_eq_ok_iff_reads (hmirrors _ _) (hkinds _ _) rfl hpasses hstop
        hallows).symm

theorem read_eq_ok_iff_parseOptions_shop :
    (OptionKind.expand ≠ .levels ∧ invalidParts "Orders($top=2)" = []) ∧
    ∃ option rest,
      read { schema := .shop, limits := { expandDepth := 1 } } .shopCustomer .expand "Orders($top=2)" =
        .ok option ∧
      Expand.parseOptions { schema := .shop, limits := { expandDepth := 2 } } .shopCustomer .plain
          (.ofTokens (tokens ("(" ++ "$expand" ++ "=" ++ "Orders($top=2)" ++ ")"))) =
        .ok (OptionSet.empty.set option) rest ∧
      rest.current.kind = .endOfInput := by
  have hkind : OptionKind.expand ≠ .levels := by decide
  have hfaultless : invalidParts "Orders($top=2)" = [] := by decide +kernel
  obtain ⟨option, hread⟩ := Fault.exists_ok_of_isOk (by decide +kernel :
    (read { schema := .shop, limits := { expandDepth := 1 } } .shopCustomer .expand
      "Orders($top=2)").isOk = true)
  obtain ⟨rest, hrun, hend⟩ :=
    (read_eq_ok_iff_parseOptions _ _ _ _ option hkind hfaultless).mp hread
  exact ⟨⟨hkind, hfaultless⟩, option, rest, hread, hrun, hend⟩

end SystemOption

end ODataOptions
