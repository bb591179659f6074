import ODataOptions.Proofs.Expand.Completeness
import ODataOptions.Proofs.Expand.Soundness
import ODataOptions.Proofs.Fault
import ODataOptions.Proofs.Parser.Whole
import ODataOptions.Proofs.Query.Parts

/-!
# Queries and their canonical texts

The canonical text of a query is not percent-encoded, so it is read again only where nothing in its
names and values is taken for anything else.  Then it is read as the same query exactly if it is not too
long and the limit of levels admits the expressions and searches in it.
-/

namespace ODataOptions

open ODataOptions.Parser

/-! ## Options -/

namespace SystemOption

def part (option : SystemOption Expand) : QueryPart :=
  ⟨option.kind.keyword, (option.map Expand.print).printValue⟩

theorem text_part (option : SystemOption Expand) : option.part.text = option.text := by
  rw [QueryPart.text, part, text, print, kind_map]

theorem isSystem_part (option : SystemOption Expand) : option.part.isSystem = true := by
  have hkeyword : option.kind.keyword.toList.head? = some '$' := by cases option.kind <;> decide
  exact decide_eq_true hkeyword

/-- An option of a query, of a kind that may stand there and with a valid value. -/
def Admitted (scope : Scope) (owner : StructuredType) (option : SystemOption Expand) : Prop :=
  option.kind ≠ .levels ∧
    option.Valid scope Word.IsToken (Expand.ValidWithin scope Word.IsToken scope.limits.expandDepth)
      owner

variable {scope : Scope} {owner : StructuredType} {option : SystemOption Expand} {kind : OptionKind}
  {value : String}

theorem read_eq_onText (hkind : kind ≠ .levels) :
    read scope owner kind value =
      (complete kind (parseValue scope (Expand.parse scope) owner kind)).onText value := by
  rw [read, onText]
  cases tokensOrFault value with
  | error => rfl
  | ok tokens => simp [bind, Except.bind, hkind]

/-- What is read is admitted, and of the kind asked for. -/
theorem admitted_of_read (hread : read scope owner kind value = .ok option) :
    option.kind = kind ∧ option.Admitted scope owner := by
  have hkind : kind ≠ .levels := by
    rintro rfl
    obtain ⟨_, -, hfault⟩ := Fault.bind_eq_ok_iff.mp hread
    cases hfault
  rw [read_eq_onText hkind] at hread
  obtain ⟨hsame, hvalid⟩ :=
    (yields_parseValue (Expand.yields_parseWithin scope _ _) owner kind).onText hread
  exact ⟨hsame, hsame ▸ hkind, hvalid⟩

/-- An admitted option is read from its canonical text exactly if the limit of levels admits what is in
it. -/
theorem read_part_iff (hoption : option.Admitted scope owner) {result : SystemOption Expand} :
    read scope owner option.kind option.part.value = .ok result ↔
      (∀ criterion ∈ (option.map Expand.criteria).criteria,
        criterion.Fits scope.limits.expressionDepth) ∧ result = option := by
  obtain ⟨hkind, hvalid⟩ := hoption
  rw [read_eq_onText hkind]
  have hnested : ∀ owner expand, Expand.ValidWithin scope Word.IsToken scope.limits.expandDepth owner
      expand → Writes expand.print expand.words := fun _ _ h => h.writes
  exact (reads_parseValue (fun _ _ => Expand.reads_parseWithin) hvalid).onText_eq_ok_iff
    (writes_value hnested hvalid).written

end SystemOption

/-! ## Aliases -/

namespace ParameterAlias

def part (definition : ParameterAlias) : QueryPart := ⟨"@" ++ definition.name, definition.value⟩

theorem toList_name_part (definition : ParameterAlias) :
    definition.part.name.toList = '@' :: definition.name.toList := by
  simp [part]

theorem parameterAlias?_part (definition : ParameterAlias) :
    definition.part.parameterAlias? = some definition := by
  rw [QueryPart.parameterAlias?, toList_name_part]
  simp [part]

theorem isSystem_part (definition : ParameterAlias) : definition.part.isSystem = false := by
  rw [QueryPart.isSystem, toList_name_part]
  rfl

end ParameterAlias

/-! ## Sets of options -/

namespace Query

section Options

variable {scope : Scope} {owner : StructuredType} {start result : OptionSet Expand}

/-- A part adds the option that is read from it, if its kind is new. -/
theorem addOption_eq_ok_iff {part : QueryPart} :
    addOption scope owner start part = .ok result ↔
      ∃ kind option, OptionKind.ofKeyword? part.name = some kind ∧
        SystemOption.read scope owner kind part.value = .ok option ∧
        start.contains option.kind = false ∧ result = start.set option := by
  rw [addOption]
  cases OptionKind.ofKeyword? part.name with
  | none => simp [throw, throwThe, MonadExceptOf.throw]
  | some kind =>
    dsimp only
    rw [Fault.bind_eq_ok_iff]
    constructor
    · rintro ⟨option, hread, hinsert⟩
      rw [OptionSet.insert] at hinsert
      cases hcontains : start.contains option.kind with
      | true =>
        rw [hcontains] at hinsert
        cases hinsert
      | false =>
        rw [hcontains] at hinsert
        cases hinsert
        exact ⟨kind, option, rfl, hread, hcontains, rfl⟩
    · rintro ⟨_, option, ⟨⟩, hread, hcontains, rfl⟩
      refine ⟨option, hread, ?_⟩
      rw [OptionSet.insert, hcontains]
      rfl

/-- The options of a query that is read are admitted. -/
theorem admitted_of_foldlM_addOption {parts : List QueryPart}
    (hstart : ∀ kind option, start.get? kind = some option → option.Admitted scope owner)
    (hfold : parts.foldlM (addOption scope owner) start = .ok result) :
    ∀ kind option, result.get? kind = some option → option.Admitted scope owner := by
  induction parts generalizing start with
  | nil =>
    cases hfold
    exact hstart
  | cons part parts ih =>
    rw [List.foldlM_cons, Fault.bind_eq_ok_iff] at hfold
    obtain ⟨middle, hadd, hfold⟩ := hfold
    obtain ⟨kind, option, -, hread, -, rfl⟩ := addOption_eq_ok_iff.mp hadd
    obtain ⟨-, hadmitted⟩ := SystemOption.admitted_of_read hread
    refine ih (fun other found hget => ?_) hfold
    rw [OptionSet.get?_set] at hget
    split at hget
    · cases hget
      exact hadmitted
    · exact hstart other found hget

/-- The part of an admitted option is added exactly if it fits the limits. -/
theorem addOption_part_iff {option : SystemOption Expand} (hoption : option.Admitted scope owner)
    (hfree : start.contains option.kind = false) :
    addOption scope owner start option.part = .ok result ↔
      (∀ criterion ∈ (option.map Expand.criteria).criteria,
        criterion.Fits scope.limits.expressionDepth) ∧ result = start.set option := by
  have hkeyword : OptionKind.ofKeyword? option.part.name = some option.kind :=
    OptionKind.ofKeyword?_keyword option.kind
  rw [addOption_eq_ok_iff, hkeyword]
  constructor
  · rintro ⟨_, found, ⟨⟩, hread, -, rfl⟩
    obtain ⟨hfits, rfl⟩ := (SystemOption.read_part_iff hoption).mp hread
    exact ⟨hfits, rfl⟩
  · rintro ⟨hfits, rfl⟩
    exact ⟨_, option, rfl, (SystemOption.read_part_iff hoption).mpr ⟨hfits, rfl⟩, hfree, rfl⟩

/-- Admitted options of different kinds are added one after the other exactly if the limit of levels
admits all of them. -/
theorem foldlM_addOption_parts_iff {options : List (SystemOption Expand)}
    (hoptions : ∀ option ∈ options, option.Admitted scope owner)
    (hkinds : options.Pairwise fun first second => first.kind ≠ second.kind)
    (hfree : ∀ option ∈ options, start.contains option.kind = false) :
    (options.map SystemOption.part).foldlM (addOption scope owner) start = .ok result ↔
      (∀ option ∈ options, ∀ criterion ∈ (option.map Expand.criteria).criteria,
        criterion.Fits scope.limits.expressionDepth) ∧
      result = options.foldl (fun set option => (set.insert option).toOption.getD set) start := by
  induction options generalizing start with
  | nil => simp [pure, Except.pure, eq_comm]
  | cons option options ih =>
    obtain ⟨hoption, hoptions⟩ := List.forall_mem_cons.mp hoptions
    obtain ⟨hfirst, hkinds⟩ := List.pairwise_cons.mp hkinds
    obtain ⟨hfreeFirst, hfree⟩ := List.forall_mem_cons.mp hfree
    have hfreeRest : ∀ other ∈ options, (start.set option).contains other.kind = false := by
      intro other hmem
      rw [OptionSet.contains, OptionSet.get?_set, if_neg (hfirst other hmem)]
      exact hfree other hmem
    have hinsert : (start.insert option).toOption.getD start = start.set option := by
      rw [OptionSet.insert_getD, hfreeFirst]
      rfl
    rw [List.map_cons, List.foldlM_cons, Fault.bind_eq_ok_iff, List.forall_mem_cons, List.foldl_cons,
      hinsert]
    constructor
    · rintro ⟨middle, hadd, hfold⟩
      obtain ⟨hfitsFirst, rfl⟩ := (addOption_part_iff hoption hfreeFirst).mp hadd
      obtain ⟨hfits, hresult⟩ := (ih hoptions hkinds hfreeRest).mp hfold
      exact ⟨⟨hfitsFirst, hfits⟩, hresult⟩
    · rintro ⟨⟨hfitsFirst, hfits⟩, hresult⟩
      exact ⟨_, (addOption_part_iff hoption hfreeFirst).mpr ⟨hfitsFirst, rfl⟩,
        (ih hoptions hkinds hfreeRest).mpr ⟨hfits, hresult⟩⟩

/-- The options of a set are read again from the parts in which they are printed exactly if the limit
of levels admits all of them. -/
theorem foldlM_addOption_set_iff {options : OptionSet Expand}
    (hoptions : ∀ option ∈ options.toList, option.Admitted scope owner) :
    (options.toList.map SystemOption.part).foldlM (addOption scope owner) ∅ = .ok result ↔
      (∀ criterion ∈ (options.map Expand.criteria).criteria,
        criterion.Fits scope.limits.expressionDepth) ∧ result = options := by
  have hfree : ∀ option ∈ options.toList,
      (∅ : OptionSet Expand).contains option.kind = false := by
    intro option _
    cases option.kind <;> rfl
  have hset : options.toList.foldl (fun set option => (set.insert option).toOption.getD set) ∅ =
      options :=
    OptionSet.ofList_toList options
  rw [foldlM_addOption_parts_iff hoptions options.pairwise_kind_ne hfree, hset, OptionSet.criteria,
    OptionSet.toList_map, List.forall_mem_flatMap, List.forall_mem_map]

end Options

/-! ## Printed parts -/

def parts (query : Query) : List QueryPart :=
  query.system.toList.map SystemOption.part ++ query.aliases.entries.map ParameterAlias.part ++
    query.custom.map fun pair => ⟨pair.1, pair.2⟩

theorem print_eq (query : Query) :
    query.print = "&".intercalate (query.parts.map QueryPart.text) := by
  rw [print, printParts, parts, List.map_append, List.map_append, List.map_map, List.map_map,
    List.map_map]
  congr 3
  exact List.map_congr_left fun option _ => option.text_part.symm

/-! ## Queries -/

/-- What it takes for a query to be read: its length, its aliases, its options and its other parts.
-/
theorem read_eq_ok_iff {schema : Schema} {limits : Limits} {owner : StructuredType} {text : String}
    {query : Query} :
    read schema limits owner text = .ok query ↔
      text.utf8ByteSize ≤ limits.queryLength ∧
      NameTable.ofList ((QueryPart.listOf text).filterMap QueryPart.parameterAlias?) = query.aliases ∧
      ((QueryPart.listOf text).filter QueryPart.isSystem).foldlM
        (addOption { schema, aliases := query.aliases, limits } owner) ∅ = .ok query.system ∧
      ((QueryPart.listOf text).filter QueryPart.isCustom).map (fun part => (part.name, part.value)) =
        query.custom := by
  rw [read]
  by_cases hlength : limits.queryLength < text.utf8ByteSize
  · rw [if_pos hlength]
    exact ⟨fun hread => (by cases hread), fun ⟨hle, _⟩ => absurd hlength (Nat.not_lt.mpr hle)⟩
  · rw [if_neg hlength]
    refine Fault.bind_eq_ok_iff.trans ⟨?_, ?_⟩
    · rintro ⟨system, hsystem, ⟨⟩⟩
      exact ⟨Nat.not_lt.mp hlength, rfl, hsystem, rfl⟩
    · rintro ⟨-, haliases, hsystem, hcustom⟩
      refine ⟨query.system, ?_, ?_⟩
      · rw [haliases]
        exact hsystem
      · rw [haliases, hcustom]
        rfl

section Reread

variable {schema : Schema} {limits : Limits} {owner : StructuredType} {text : String} {query : Query}

theorem admitted_of_read (hread : read schema limits owner text = .ok query) :
    ∀ option ∈ query.system.toList,
      option.Admitted { schema, aliases := query.aliases, limits } owner := by
  obtain ⟨-, -, hsystem, -⟩ := read_eq_ok_iff.mp hread
  have hempty : ∀ kind option, (∅ : OptionSet Expand).get? kind = some option →
      option.Admitted { schema, aliases := query.aliases, limits } owner := by
    intro kind option hget
    cases kind <;> cases hget
  exact fun option hmem =>
    admitted_of_foldlM_addOption hempty hsystem _ _ (OptionSet.mem_toList.mp hmem)

theorem isCustom_of_read (hread : read schema limits owner text = .ok query) :
    ∀ pair ∈ query.custom, (QueryPart.mk pair.1 pair.2).isCustom = true := by
  obtain ⟨-, -, -, hcustom⟩ := read_eq_ok_iff.mp hread
  rw [← hcustom]
  exact List.forall_mem_map.mpr fun part hmem => (List.mem_filter.mp hmem).2

variable (hcustom : ∀ pair ∈ query.custom, (QueryPart.mk pair.1 pair.2).isCustom = true)

include hcustom

theorem filterMap_parts : query.parts.filterMap QueryPart.parameterAlias? = query.aliases.entries := by
  have hsystem : (query.system.toList.map SystemOption.part).filterMap QueryPart.parameterAlias? =
      [] :=
    List.filterMap_eq_nil_iff.mpr <| List.forall_mem_map.mpr fun option _ =>
      QueryPart.parameterAlias?_of_isSystem option.isSystem_part
  have haliases : (query.aliases.entries.map ParameterAlias.part).filterMap QueryPart.parameterAlias? =
      query.aliases.entries := by
    rw [List.filterMap_map]
    exact (List.filterMap_congr fun definition _ => definition.parameterAlias?_part).trans
      List.filterMap_some
  have hothers : (query.custom.map fun pair => (⟨pair.1, pair.2⟩ : QueryPart)).filterMap
      QueryPart.parameterAlias? = [] :=
    List.filterMap_eq_nil_iff.mpr <| List.forall_mem_map.mpr fun pair hmem =>
      (QueryPart.isCustom_iff.mp (hcustom pair hmem)).1
  rw [parts, List.filterMap_append, List.filterMap_append, hsystem, haliases, hothers,
    List.nil_append, List.append_nil]

/-- Of the printed parts, those of the options are named like options. -/
theorem filter_isSystem_parts :
    query.parts.filter QueryPart.isSystem = query.system.toList.map SystemOption.part := by
  have hsystem : (query.system.toList.map SystemOption.part).filter QueryPart.isSystem =
      query.system.toList.map SystemOption.part :=
    List.filter_eq_self.mpr <| List.forall_mem_map.mpr fun option _ => option.isSystem_part
  have haliases : (query.aliases.entries.map ParameterAlias.part).filter QueryPart.isSystem = [] :=
    List.filter_eq_nil_iff.mpr <| List.forall_mem_map.mpr fun definition _ =>
      Bool.eq_false_iff.mp definition.isSystem_part
  have hothers : (query.custom.map fun pair => (⟨pair.1, pair.2⟩ : QueryPart)).filter
      QueryPart.isSystem = [] :=
    List.filter_eq_nil_iff.mpr <| List.forall_mem_map.mpr fun pair hmem =>
      Bool.eq_false_iff.mp (QueryPart.isCustom_iff.mp (hcustom pair hmem)).2
  rw [parts, List.filter_append, List.filter_append, hsystem, haliases, hothers, List.append_nil,
    List.append_nil]

theorem filter_isCustom_parts :
    (query.parts.filter QueryPart.isCustom).map (fun part => (part.name, part.value)) =
      query.custom := by
  have hsystem : (query.system.toList.map SystemOption.part).filter QueryPart.isCustom = [] := by
    refine List.filter_eq_nil_iff.mpr <| List.forall_mem_map.mpr ?_
    intro option _ hmem
    exact Bool.eq_false_iff.mp (QueryPart.isCustom_iff.mp hmem).2 option.isSystem_part
  have haliases : (query.aliases.entries.map ParameterAlias.part).filter QueryPart.isCustom = [] := by
    refine List.filter_eq_nil_iff.mpr <| List.forall_mem_map.mpr ?_
    intro definition _ hmem
    have hnone := (QueryPart.isCustom_iff.mp hmem).1
    rw [ParameterAlias.parameterAlias?_part] at hnone
    cases hnone
  have hothers : (query.custom.map fun pair => (⟨pair.1, pair.2⟩ : QueryPart)).filter
      QueryPart.isCustom = query.custom.map fun pair => ⟨pair.1, pair.2⟩ :=
    List.filter_eq_self.mpr <| List.forall_mem_map.mpr hcustom
  rw [parts, List.filter_append, List.filter_append, hsystem, haliases, hothers, List.nil_append,
    List.nil_append, List.map_map]
  exact List.map_id _

end Reread

def criteria (query : Query) : List Criterion := (query.system.map Expand.criteria).criteria

/-- Nothing in the canonical text is taken for anything else. -/
def Plain (query : Query) : Prop :=
  (∀ part ∈ query.parts, part.Plain) ∧ query.print.toList.head? ≠ some '?'

instance (query : Query) : Decidable query.Plain := inferInstanceAs (Decidable (_ ∧ _))

/-- A query that was read is read again from its canonical text, if nothing in this is taken for
anything else, exactly if the text is not too long and the limit of levels admits the expressions and
searches in it. -/
theorem reread_iff (schema : Schema) (limits : Limits) (owner : StructuredType) (text : String)
    (query : Query) (hread : read schema limits owner text = .ok query) (hplain : query.Plain) :
    read schema limits owner query.print = .ok query ↔
      query.print.utf8ByteSize ≤ limits.queryLength ∧
      ∀ criterion ∈ query.criteria, criterion.Fits limits.expressionDepth := by
  obtain ⟨hparts, hfirst⟩ := hplain
  have hlist : QueryPart.listOf query.print = query.parts := by
    rw [print_eq] at hfirst ⊢
    exact QueryPart.listOf_texts hparts hfirst
  have hcustom := isCustom_of_read hread
  rw [read_eq_ok_iff, hlist, filterMap_parts hcustom, NameTable.ofList_entries,
    filter_isSystem_parts hcustom, foldlM_addOption_set_iff (admitted_of_read hread),
    filter_isCustom_parts hcustom]
  simp [criteria]

theorem reread_shop :
    ∃ query, read .shop {} .shopCustomer "format=json&@least=2&$expand=Orders($filter=Total gt @least)" =
      .ok query ∧ read .shop {} .shopCustomer query.print = .ok query := by
  have hread : ∃ query, read .shop {} .shopCustomer
      "format=json&@least=2&$expand=Orders($filter=Total gt @least)" = .ok query ∧
        decide (query.Plain ∧ query.print.utf8ByteSize ≤ 8192 ∧
          ∀ criterion ∈ query.criteria, criterion.Fits 32) = true :=
    Fault.exists_ok_of_any (by decide +kernel)
  obtain ⟨query, hread, hquery⟩ := hread
  obtain ⟨hplain, hfits⟩ := of_decide_eq_true hquery
  exact ⟨query, hread, (reread_iff .shop {} .shopCustomer _ query hread hplain).mpr hfits⟩

/-- The encoded ampersand in a value is printed as one that ends the part. -/
theorem reread_ampersand :
    ∃ query, read .shop {} .shopCustomer "a=1%26b" = .ok query ∧ query.custom = [("a", "1&b")] ∧
      read .shop {} .shopCustomer query.print ≠ .ok query := by
  have hread : ∃ query, read .shop {} .shopCustomer "a=1%26b" = .ok query ∧
      decide (query.custom = [("a", "1&b")] ∧
        (read .shop {} .shopCustomer query.print).toOption ≠ some query) = true :=
    Fault.exists_ok_of_any (by decide +kernel)
  obtain ⟨query, hread, hquery⟩ := hread
  obtain ⟨hcustom, hagain⟩ := of_decide_eq_true hquery
  refine ⟨query, hread, hcustom, fun hok => hagain ?_⟩
  rw [hok]
  rfl

end Query

end ODataOptions
