import ODataOptions.Proofs.Expand.Mirrors
import ODataOptions.Proofs.Expand.Words
import ODataOptions.Proofs.Expression.Openings
import ODataOptions.Proofs.Search.Openings

/-!
# How deep parsed expansions are

Two limits bound what is parsed: that of the levels of expansions inside one another, and that of the levels
which an expression or a search keeps open.  The parser counts the first as it goes into the options of
an item, and the second at the cursor, which all expressions share.  Neither count is affected by what has
been parsed before.
-/

namespace ODataOptions

open ODataOptions.Parser

/-- The largest number of negations and calls on a way down the tree. -/
def Criterion.openings : Criterion → Nat
  | .expression value => value.openings
  | .search value => value.openings

namespace ExpandItem

mutual

/-- The levels of expansions inside one another, in the options of an item. -/
def depth : ExpandItem → Nat
  | .star _ _ => 0
  | .path _ _ _ options => optionDepth options

def allDepth : List ExpandItem → Nat
  | [] => 0
  | item :: items => max (depth item) (allDepth items)

def expandDepth : Option (List ExpandItem) → Nat
  | none => 0
  | some items => allDepth items + 1

def optionDepth : OptionSet (List ExpandItem) → Nat
  | ⟨_, expand, _, _, _, _, _, _, _⟩ => expandDepth expand

end

end ExpandItem

/-- The levels of expansions inside one another, that of the expansion itself included. -/
def Expand.depth (expand : Expand) : Nat := ExpandItem.allDepth expand + 1

/-- The trees in the value of an option open at most `bound` levels, and the expansion is one of those
that `nested` allows. -/
def SystemOption.OpensAtMost {Expansion : Type} (bound : Nat) (nested : Expansion → Prop) :
    SystemOption Expansion → Prop
  | .expand value => nested value
  | .filter value => value.openings ≤ bound
  | .orderBy value => ∀ key ∈ value, key.expression.openings ≤ bound
  | .search value => value.openings ≤ bound
  | .count _ | .levels _ | .select _ | .skip _ | .top _ => True

def OptionSet.OpensAtMost {Expansion : Type} (bound : Nat) (nested : Expansion → Prop)
    (options : OptionSet Expansion) : Prop :=
  ∀ kind option, options.get? kind = some option → option.OpensAtMost bound nested

/-- An expansion has at most `levels` levels, and its trees open at most `bound` levels. -/
structure Expand.DeepAtMost (levels bound : Nat) (expand : Expand) : Prop where
  depth_le : expand.depth ≤ levels
  openings_le : ∀ criterion ∈ expand.criteria, criterion.openings ≤ bound

/-! ## Depth of what is made of parts -/

section

variable {levels bound : Nat}

theorem SystemOption.OpensAtMost.criteria_le {option : SystemOption Expand}
    (hoption : option.OpensAtMost bound (Expand.DeepAtMost levels bound)) :
    ∀ criterion ∈ (option.map Expand.criteria).criteria, criterion.openings ≤ bound := by
  cases option with
  | expand value => exact hoption.openings_le
  | filter value => exact List.forall_mem_singleton.mpr hoption
  | orderBy value => exact List.forall_mem_map.mpr hoption
  | search value => exact List.forall_mem_singleton.mpr hoption
  | count | levels | select | skip | top => exact List.forall_mem_nil _

namespace ExpandItem

/-- The options of an item are as deep as the expansion among them, if there is one. -/
theorem optionDepth_le {options : OptionSet Expand}
    (hoptions : options.OpensAtMost bound (Expand.DeepAtMost levels bound)) :
    optionDepth options ≤ levels := by
  obtain ⟨count, expand, filter, levels, orderBy, search, select, skip, top⟩ := options
  rw [optionDepth]
  cases expand with
  | none => exact Nat.zero_le _
  | some items =>
    have hexpand : Expand.DeepAtMost _ bound items := hoptions .expand (.expand items) rfl
    exact hexpand.depth_le

theorem optionCriteria_le {options : OptionSet Expand}
    (hoptions : options.OpensAtMost bound (Expand.DeepAtMost levels bound)) :
    ∀ criterion ∈ (optionCriteria options).criteria, criterion.openings ≤ bound := by
  rw [optionCriteria_eq_map, OptionSet.criteria, OptionSet.toList_map, List.flatMap_map]
  intro criterion hcriterion
  obtain ⟨option, hoption, hmem⟩ := List.mem_flatMap.mp hcriterion
  exact (hoptions option.kind option (OptionSet.mem_toList.mp hoption)).criteria_le criterion hmem

end ExpandItem

/-- The items of an expansion decide how deep it is. -/
theorem Expand.deepAtMost {expand : Expand}
    (hitems : ∀ item ∈ expand, item.depth ≤ levels ∧
      ∀ criterion ∈ item.criteria, criterion.openings ≤ bound) :
    expand.DeepAtMost (levels + 1) bound := by
  constructor
  · apply Nat.succ_le_succ
    induction expand with
    | nil => exact Nat.zero_le levels
    | cons item items ih =>
      obtain ⟨hitem, hrest⟩ := List.forall_mem_cons.mp hitems
      exact Nat.max_le.mpr ⟨hitem.1, ih hrest⟩
  · rw [criteria, ExpandItem.allCriteria_eq_flatMap]
    intro criterion hcriterion
    obtain ⟨item, hitem, hmem⟩ := List.mem_flatMap.mp hcriterion
    exact (hitems item hitem).2 criterion hmem

end

/-! ## The grammar -/

section

variable {Expansion : Type} {scope : Scope} {nested : Expansion → Prop}
  {expansion : StructuredType → Parser Expansion} {depth : Nat}

/-- The value of an option starts at the depth of the option, and its trees open what the limit
leaves. -/
theorem SystemOption.yieldsAt_parseValue
    (hexpansion : ∀ owner, YieldsAt depth (expansion owner) nested) (owner : StructuredType)
    (kind : OptionKind) :
    YieldsAt depth (parseValue scope expansion owner kind)
      (OpensAtMost (scope.limits.expressionDepth - depth) nested) := by
  cases kind with
  | expand => exact (hexpansion owner).map fun _ hvalue => hvalue
  | filter => exact (Expression.yieldsAt_parseFilter scope owner depth).map fun _ hvalue => hvalue
  | orderBy => exact (OrderBy.yieldsAt_parse scope owner depth).map fun _ hvalue => hvalue
  | search => exact (SearchExpression.yieldsAt_parse scope.limits depth).map fun _ hvalue => hvalue
  | count => exact mirrors_truthValue.moves.yieldsAt.map fun _ _ => trivial
  | levels => exact Levels.mirrors_parse.moves.yieldsAt.map fun _ _ => trivial
  | select => exact (Select.mirrors_parse scope.schema owner).moves.yieldsAt.map fun _ _ => trivial
  | skip | top => exact (mirrors_wholeNumber _ _).moves.yieldsAt.map fun _ _ => trivial

namespace OptionSet

variable {value : OptionKind → Parser (SystemOption Expansion)} {P : SystemOption Expansion → Prop}

/-- What is gathered so far is kept, and the option that is added is one of those that `value`
yields. -/
theorem yieldsAt_parseOption (hvalue : ∀ kind, YieldsAt depth (value kind) P)
    (context : OptionContext) {gathered : Gathered Expansion}
    (hgathered : ∀ kind option, gathered.options.get? kind = some option → P option) :
    YieldsAt depth (parseOption value context gathered) fun next =>
      ∀ kind option, next.options.get? kind = some option → P option := by
  apply moves_current.bind_yieldsAt
  intro keyword
  cases allowedKind? context keyword with
  | none => exact yieldsAt_failHere _
  | some kind =>
    apply moves_next.bind_yieldsAt
    intro _
    apply (moves_expect .equals).bind_yieldsAt
    intro _
    apply (hvalue kind).bind
    intro option hoption
    split
    · next hinsert => exact .pure (forall_get?_of_insert hgathered hoption hinsert)
    · exact yieldsAt_throw _

theorem yieldsAt_parse (hvalue : ∀ kind, YieldsAt depth (value kind) P) (context : OptionContext) :
    YieldsAt depth (parse value context) fun options =>
      ∀ kind option, options.get? kind = some option → P option := by
  have hnone : ∀ kind option, (empty : OptionSet Expansion).get? kind = some option → P option := by
    intro kind option hget
    cases kind <;> cases hget
  apply (moves_accept .openParen).bind_yieldsAt
  intro opened
  cases opened with
  | false => exact .pure hnone
  | true =>
    have hlist : YieldsAt depth (separatedFrom (parseOption value context) .semicolon {})
        fun gathered => ∀ kind option, gathered.options.get? kind = some option → P option := by
      apply yieldsAt_separatedFrom _ .semicolon hnone
      intro gathered hgathered
      exact yieldsAt_parseOption hvalue context hgathered
    apply hlist.bind
    intro gathered hgathered
    exact (moves_expect _).yieldsAt.map fun _ _ => hgathered

end OptionSet

end

namespace ExpandItem

variable {scope : Scope} {expansion : StructuredType → Parser Expand} {levels depth : Nat}

theorem yieldsAt_parseStar :
    YieldsAt depth parseStar fun item => ∃ ref levels, item = .star ref levels := by
  apply (moves_accept _).bind_yieldsAt
  intro slash
  split
  · exact (moves_expect _).yieldsAt.map fun _ _ => ⟨_, _, rfl⟩
  · apply (moves_accept _).bind_yieldsAt
    intro opened
    split
    · apply (moves_expect _).bind_yieldsAt
      intro _
      apply (moves_expect _).bind_yieldsAt
      intro _
      apply Levels.mirrors_parse.moves.bind_yieldsAt
      intro levels
      exact (moves_expect _).yieldsAt.map fun _ _ => ⟨_, _, rfl⟩
    · exact .pure ⟨_, _, rfl⟩

theorem yieldsAt_parsePath
    (hexpansion : ∀ owner, YieldsAt depth (expansion owner)
      (Expand.DeepAtMost levels (scope.limits.expressionDepth - depth)))
    (cast : Option StructuredType) (owner : StructuredType) :
    YieldsAt depth (parsePath scope expansion cast owner) fun item =>
      item.depth ≤ levels ∧
        ∀ criterion ∈ item.criteria, criterion.openings ≤ scope.limits.expressionDepth - depth := by
  apply (PathSegment.mirrors_parsePath owner).moves.bind_yieldsAt
  intro target
  apply (PathSegment.mirrors_parseSuffix target.slash).moves.bind_yieldsAt
  intro suffix
  have hvalue : ∀ kind, YieldsAt depth (SystemOption.parseValue scope expansion target.type kind) _ :=
    SystemOption.yieldsAt_parseValue hexpansion target.type
  apply (OptionSet.yieldsAt_parse hvalue suffix.2).map
  intro options hoptions
  rw [ExpandItem.depth, ExpandItem.criteria]
  exact ⟨optionDepth_le hoptions, optionCriteria_le hoptions⟩

theorem yieldsAt_parse
    (hexpansion : ∀ owner, YieldsAt depth (expansion owner)
      (Expand.DeepAtMost levels (scope.limits.expressionDepth - depth))) (owner : StructuredType) :
    YieldsAt depth (ExpandItem.parse scope expansion owner) fun item =>
      item.depth ≤ levels ∧
        ∀ criterion ∈ item.criteria, criterion.openings ≤ scope.limits.expressionDepth - depth := by
  apply (moves_accept _).bind_yieldsAt
  intro star
  split
  · apply yieldsAt_parseStar.mono
    intro item hitem
    obtain ⟨ref, levels, rfl⟩ := hitem
    rw [ExpandItem.depth, ExpandItem.criteria]
    exact ⟨Nat.zero_le _, List.forall_mem_nil _⟩
  · apply (owner.mirrors_parseCast? scope.schema).moves.bind_yieldsAt
    intro cast?
    cases cast? with
    | none => exact yieldsAt_parsePath hexpansion none owner
    | some cast => exact (moves_expect _).bind_yieldsAt fun _ => yieldsAt_parsePath hexpansion cast cast

end ExpandItem

/-- The levels of expansions are counted by the recursion, those within expressions by the cursor.
-/
theorem Expand.yieldsAt_parseWithin (scope : Scope) (levels depth : Nat) (owner : StructuredType) :
    YieldsAt depth (parseWithin scope levels owner)
      (DeepAtMost levels (scope.limits.expressionDepth - depth)) := by
  induction levels generalizing owner with
  | zero => exact yieldsAt_failHere _
  | succ levels ih => exact ((ExpandItem.yieldsAt_parse ih owner).separated .comma).mono fun _ => deepAtMost

/-- An expansion that is parsed has no more levels than the one limit allows, and on no way down a tree
among its options are there more negations and calls than the other limit leaves.  At the first token no
level is open, so there it leaves all of them. -/
theorem Expand.deep_le_of_parse (scope : Scope) (owner : StructuredType) (cursor : Cursor)
    (expand : Expand) (rest : Cursor) (hrun : Expand.parse scope owner cursor = .ok expand rest) :
    expand.depth ≤ scope.limits.expandDepth ∧
      ∀ criterion ∈ expand.criteria,
        criterion.openings ≤ scope.limits.expressionDepth - cursor.depth := by
  have hdeep := (yieldsAt_parseWithin scope _ _ owner).of_ok hrun
  exact ⟨hdeep.depth_le, hdeep.openings_le⟩

/-- Both limits are reached. -/
theorem Expand.deep_le_of_parse_shop :
    ∃ expand : Expand, expand.depth = 2 ∧ expand.criteria.map Criterion.openings = [2, 1, 2] ∧
      expand.depth ≤ 2 ∧ ∀ criterion ∈ expand.criteria, criterion.openings ≤ 2 - 0 := by
  have hrun : ∃ expand rest,
      Expand.parse { schema := .shop, limits := { expandDepth := 2, expressionDepth := 2 } } .shopCustomer
        (.ofTokens (tokens
          "Orders($expand=Customer($filter=not not true;$orderby=year(null));$search=NOT NOT a)")) =
        .ok expand rest ∧
      expand.depth = 2 ∧ expand.criteria.map Criterion.openings = [2, 1, 2] := by
    refine ⟨_, _, rfl, ?_, ?_⟩ <;> decide +kernel
  obtain ⟨expand, rest, hrun, hdepth, hopenings⟩ := hrun
  exact ⟨expand, hdepth, hopenings, Expand.deep_le_of_parse
    { schema := .shop, limits := { expandDepth := 2, expressionDepth := 2 } } .shopCustomer _ _ _ hrun⟩

end ODataOptions
