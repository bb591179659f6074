import ODataOptions.Proofs.Schema.Lineage
import ODataOptions.Proofs.Schema.Walks

/-!
# Inheritance

Two loops go along base types.  One collects the definitions that a type inherits from, and stops at a
definition of a name that it has met.  The other looks for a type that another one may derive from: it
compares each type with the one looked for and stops at a type that it has met.  Both end on every
schema, also where a base is missing, is of the other kind or leads back, and they agree on what a
type derives from.
-/

namespace ODataOptions.Schema

variable {α : Type} {schema : Schema} {definition other : TypeDefinition}
  {owner candidate expected type : StructuredType} {count steps : Nat} {find : TypeDefinition → Option α}

/-- The type that so many steps to a base type lead to. -/
def ascend? (schema : Schema) : Nat → StructuredType → Option StructuredType := after? schema.base?

/-- What the definition of a type itself declares. -/
def declared? (schema : Schema) (find : TypeDefinition → Option α) (type : StructuredType) : Option α :=
  (schema.definition? type).bind find

/-! ## Steps between types and between definitions -/

theorem ancestor?_eq_after? (steps : Nat) (definition : TypeDefinition) :
    schema.ancestor? steps definition = after? schema.baseDefinition? steps definition := by
  induction steps generalizing definition with
  | zero => rfl
  | succ steps ih =>
    rw [ancestor?, after?]
    congr 1
    funext base
    exact ih base

/-- The definition of a base type is the one that is found for the type that it defines. -/
theorem definition?_type_of_baseDefinition? (hbase : schema.baseDefinition? definition = some other) :
    schema.definition? other.type = some other := by
  obtain ⟨name, -, hfound⟩ := Option.bind_eq_some_iff.mp hbase
  rw [(mem_definitions_of_definition? hfound).2, hfound]

/-- The steps from a type lead to the types whose definitions the steps from its definition lead to. -/
theorem definition?_ascend? (steps : Nat) (owner : StructuredType) :
    (schema.ascend? steps owner).bind schema.definition? =
      (schema.definition? owner).bind (schema.ancestor? steps) := by
  induction steps generalizing owner with
  | zero =>
    change schema.definition? owner = _
    cases schema.definition? owner <;> rfl
  | succ steps ih =>
    rw [ascend?, after?, base?]
    cases hfound : schema.definition? owner with
    | none => rfl
    | some definition =>
      rw [Option.bind_some, Option.bind_some, ancestor?]
      cases hbase : schema.baseDefinition? definition with
      | none => rfl
      | some base =>
        have hnext := ih base.type
        rw [definition?_type_of_baseDefinition? hbase] at hnext
        exact hnext

/-- A type that a step or more lead to is one of the schema. -/
theorem exists_definition?_of_ascend? (hsteps : schema.ascend? (steps + 1) owner = some type) :
    ∃ definition, schema.definition? type = some definition := by
  obtain ⟨base, hbase, hrest⟩ := Option.bind_eq_some_iff.mp hsteps
  induction steps generalizing owner base with
  | zero =>
    cases hrest
    obtain ⟨definition, hdefinition, rfl⟩ := Option.map_eq_some_iff.mp hbase
    obtain ⟨_, -, hfound⟩ := Option.bind_eq_some_iff.mp hdefinition
    exact ⟨definition, definition?_type_of_baseDefinition? hfound⟩
  | succ steps ih =>
    obtain ⟨next, hnext, hmore⟩ := Option.bind_eq_some_iff.mp hrest
    exact ih hrest next hnext hmore

/-! ## Lines -/

/-- As many steps as there are definitions are enough for what any number of steps leads to. -/
theorem mem_ancestry_of_ancestor?_eq (hmem : definition ∈ schema.definitions)
    (hfound : schema.ancestor? steps definition = some other) :
    other ∈ schema.ancestry schema.definitions.length definition := by
  induction steps using Nat.strong_induction_on generalizing other with
  | h steps ih =>
    rcases Nat.lt_or_ge steps schema.definitions.length with hlt | hge
    · exact mem_ancestry_iff.mpr ⟨steps, hlt, hfound⟩
    · -- The node at the limit has been met before, so a shorter walk leads to `other`.
      obtain ⟨more, rfl⟩ := Nat.exists_eq_add_of_le hge
      rw [ancestor?_add] at hfound
      obtain ⟨last, hlast, hmore⟩ := Option.bind_eq_some_iff.mp hfound
      obtain ⟨first, hlt, hfirst⟩ := mem_ancestry_iff.mp (mem_ancestry_of_ancestor? hmem hlast)
      have hshort : schema.ancestor? (first + more) definition = some other := by
        rw [ancestor?_add, hfirst, Option.bind_some, hmore]
      exact ih (first + more) (by omega) hshort

theorem mem_ancestry_length_iff (hmem : definition ∈ schema.definitions) :
    other ∈ schema.ancestry schema.definitions.length definition ↔
      ∃ steps, schema.ancestor? steps definition = some other := by
  constructor
  · intro hother
    obtain ⟨steps, -, hsteps⟩ := mem_ancestry_iff.mp hother
    exact ⟨steps, hsteps⟩
  · rintro ⟨steps, hsteps⟩
    exact mem_ancestry_of_ancestor?_eq hmem hsteps

/-- The lineage of a type holds the definitions of the types that steps to a base lead to. -/
theorem mem_lineage_iff :
    other ∈ schema.lineage owner ↔
      ∃ steps type, schema.ascend? steps owner = some type ∧ schema.definition? type = some other := by
  simp only [← Option.bind_eq_some_iff, definition?_ascend?]
  rw [lineage]
  cases hfound : schema.definition? owner with
  | none => simp
  | some definition => exact mem_ancestry_length_iff (mem_definitions_of_definition? hfound).1

/-- A type is compatible with those that its steps to base types lead to. -/
theorem isCompatible_iff :
    schema.isCompatible candidate expected = true ↔
      ∃ steps, schema.ascend? steps candidate = some expected := by
  rw [isCompatible, Bool.or_eq_true, decide_eq_true_eq, List.contains_iff_mem, List.mem_map]
  constructor
  · rintro (rfl | ⟨definition, hmem, rfl⟩)
    · exact ⟨0, rfl⟩
    · obtain ⟨steps, type, hsteps, hfound⟩ := mem_lineage_iff.mp hmem
      rw [(mem_definitions_of_definition? hfound).2]
      exact ⟨steps, hsteps⟩
  · rintro ⟨steps, hsteps⟩
    cases steps with
    | zero => exact .inl (Option.some.inj hsteps)
    | succ steps =>
      obtain ⟨definition, hfound⟩ := exists_definition?_of_ascend? hsteps
      exact .inr ⟨definition, mem_lineage_iff.mpr ⟨steps + 1, expected, hsteps, hfound⟩,
        (mem_definitions_of_definition? hfound).2⟩

theorem isCompatible_refl (schema : Schema) (type : StructuredType) :
    schema.isCompatible type type = true :=
  isCompatible_iff.mpr ⟨0, rfl⟩

/-- Being derived is transitive, even around a circle. -/
theorem isCompatible_trans {first second third : StructuredType}
    (hfirst : schema.isCompatible first second = true)
    (hsecond : schema.isCompatible second third = true) : schema.isCompatible first third = true := by
  obtain ⟨steps, hsteps⟩ := isCompatible_iff.mp hfirst
  obtain ⟨more, hmore⟩ := isCompatible_iff.mp hsecond
  refine isCompatible_iff.mpr ⟨steps + more, ?_⟩
  rw [ascend?, after?_add]
  change (schema.ascend? steps first).bind _ = _
  rw [hsteps, Option.bind_some]
  exact hmore

/-- They are those of the types that the type is compatible with. -/
theorem mem_lineage_iff_isCompatible :
    other ∈ schema.lineage owner ↔
      ∃ type, schema.isCompatible owner type = true ∧ schema.definition? type = some other := by
  rw [mem_lineage_iff, exists_comm]
  simp only [isCompatible_iff, exists_and_right]

/-! ## Members -/

theorem findSome?_ancestry_eq_none_iff :
    (schema.ancestry count definition).findSome? find = none ↔
      ∀ steps < count, (schema.ancestor? steps definition).bind find = none := by
  simp only [List.findSome?_eq_none_iff, mem_ancestry_iff, Option.bind_eq_none_iff]
  constructor
  · exact fun hnone steps hlt other hother => hnone other ⟨steps, hlt, hother⟩
  · rintro hnone other ⟨steps, hlt, hother⟩
    exact hnone steps hlt other hother

/-- The first declaration on a line is the one that the fewest steps lead to. -/
theorem findSome?_ancestry_eq_some_iff {member : α} :
    (schema.ancestry count definition).findSome? find = some member ↔
      ∃ steps < count, (schema.ancestor? steps definition).bind find = some member ∧
        ∀ fewer < steps, (schema.ancestor? fewer definition).bind find = none := by
  induction count with
  | zero => simp [ancestry]
  | succ count ih =>
    have hlast : (schema.ancestor? count definition).toList.findSome? find =
        (schema.ancestor? count definition).bind find := by
      cases schema.ancestor? count definition with
      | none => rfl
      | some other => rw [Option.toList_some, List.findSome?_singleton, Option.bind_some]
    rw [ancestry_succ, List.findSome?_append, Option.or_eq_some_iff, ih, hlast,
      findSome?_ancestry_eq_none_iff, Nat.exists_lt_succ_right, and_comm (a := ∀ steps < count, _)]

/-- On a line that has everything which any number of steps leads to, the number of steps has no
limit. -/
theorem findSome?_ancestry_eq_some_iff_of_forall_mem {member : α}
    (hall : ∀ steps other, schema.ancestor? steps definition = some other →
      other ∈ schema.ancestry count definition) :
    (schema.ancestry count definition).findSome? find = some member ↔
      ∃ steps, (schema.ancestor? steps definition).bind find = some member ∧
        ∀ fewer < steps, (schema.ancestor? fewer definition).bind find = none := by
  rw [findSome?_ancestry_eq_some_iff]
  constructor
  · rintro ⟨steps, -, hnearest⟩
    exact ⟨steps, hnearest⟩
  · rintro ⟨steps, hfind, hnearest⟩
    refine ⟨steps, ?_, hfind, hnearest⟩
    -- Beyond the end of the line there is only what fewer steps lead to.
    obtain ⟨other, hother, hmember⟩ := Option.bind_eq_some_iff.mp hfind
    obtain ⟨first, hlt, hfirst⟩ := mem_ancestry_iff.mp (hall steps other hother)
    by_contra hge
    have hnone := hnearest first (by omega)
    rw [hfirst, Option.bind_some, hmember] at hnone
    cases hnone

/-- What a type inherits is declared by the type that the fewest steps lead to, among those that
declare it. -/
theorem findSome?_lineage_eq_some_iff {member : α} :
    (schema.lineage owner).findSome? find = some member ↔
      ∃ steps, (schema.ascend? steps owner).bind (schema.declared? find) = some member ∧
        ∀ fewer < steps, (schema.ascend? fewer owner).bind (schema.declared? find) = none := by
  have hdeclared : ∀ steps, (schema.ascend? steps owner).bind (schema.declared? find) =
      ((schema.definition? owner).bind (schema.ancestor? steps)).bind find := by
    intro steps
    rw [← definition?_ascend?, Option.bind_assoc]
    rfl
  simp only [hdeclared]
  rw [lineage]
  cases hfound : schema.definition? owner with
  | none => simp
  | some definition =>
    exact findSome?_ancestry_eq_some_iff_of_forall_mem fun steps other hother =>
      mem_ancestry_of_ancestor?_eq (mem_definitions_of_definition? hfound).1 hother

/-- A member is found exactly if a type declares it that the given one is compatible with. -/
theorem isSome_findSome?_lineage_iff :
    ((schema.lineage owner).findSome? find).isSome ↔
      ∃ type, schema.isCompatible owner type = true ∧ (schema.declared? find type).isSome := by
  simp only [List.findSome?_isSome_iff, mem_lineage_iff_isCompatible, declared?,
    Option.isSome_bind, Option.any_eq_true]
  constructor
  · rintro ⟨other, ⟨type, hcompatible, hfound⟩, hmember⟩
    exact ⟨type, hcompatible, other, hfound, hmember⟩
  · rintro ⟨type, hcompatible, other, hfound, hmember⟩
    exact ⟨other, ⟨type, hcompatible, hfound⟩, hmember⟩

/-! ## The loop that collects definitions -/

/-- The loop that collects the definitions of a type and of its base types. -/
def Collects (schema : Schema) (owner : StructuredType) (line : List TypeDefinition) : Prop :=
  Walk schema.baseDefinition? TypeDefinition.name [] (schema.definition? owner) line

/-- The definitions that are found under their names. -/
def found (schema : Schema) : List TypeDefinition :=
  schema.definitions.filter fun definition => schema.find? definition.name = some definition

theorem mem_found_of_definition? (hfound : schema.definition? owner = some definition) :
    definition ∈ schema.found := by
  obtain ⟨hmem, htype⟩ := mem_definitions_of_definition? hfound
  refine List.mem_filter.mpr ⟨hmem, decide_eq_true ?_⟩
  have hname : definition.name = owner.name := congrArg StructuredType.name htype
  rw [hname]
  exact (Option.filter_eq_some_iff.mp hfound).1

theorem ground_found (schema : Schema) :
    Walk.Ground schema.baseDefinition? TypeDefinition.name schema.found where
  closed _ _ _ hbase := mem_found_of_definition? (definition?_type_of_baseDefinition? hbase)
  apart definition hdefinition other hother hname := by
    have hfirst := of_decide_eq_true (List.mem_filter.mp hdefinition).2
    have hsecond := of_decide_eq_true (List.mem_filter.mp hother).2
    rw [hname, hsecond] at hfirst
    exact (Option.some.inj hfirst).symm

/-- The loop ends, on circular schemas too, and with one result. -/
theorem exists_unique_collects (schema : Schema) (owner : StructuredType) :
    ∃! line, schema.Collects owner line :=
  schema.ground_found.exists_unique fun _ hfound => mem_found_of_definition? hfound

/-- What the loop adds is a line of base types, of the length that the loop makes it. -/
theorem exists_ancestry_of_walk {met line : List TypeDefinition} {here? : Option TypeDefinition}
    (hwalk : Walk schema.baseDefinition? TypeDefinition.name met here? line) :
    ∃ rest, line = met ++ rest ∧ rest = (here?.map (schema.ancestry rest.length)).getD [] := by
  induction hwalk with
  | ended => exact ⟨[], (List.append_nil _).symm, rfl⟩
  | back => exact ⟨[], (List.append_nil _).symm, rfl⟩
  | @on met line here _ _ ih =>
    obtain ⟨rest, hline, hrest⟩ := ih
    refine ⟨here :: rest, by rw [hline, List.append_assoc, List.singleton_append], ?_⟩
    rw [List.length_cons, Option.map_some, Option.getD_some, ancestry, ← hrest]

/-- The loop ends with a line of base types that has all of them. -/
theorem Collects.ancestry_spec {line : List TypeDefinition} (hline : schema.Collects owner line)
    (hfound : schema.definition? owner = some definition) :
    line = schema.ancestry line.length definition ∧
      ∀ other, other ∈ line ↔ ∃ steps, schema.ancestor? steps definition = some other := by
  rw [Collects, hfound] at hline
  constructor
  · obtain ⟨rest, rfl, hrest⟩ := exists_ancestry_of_walk hline
    exact hrest
  · intro other
    simp only [ancestor?_eq_after?]
    exact schema.ground_found.mem_line_iff (mem_found_of_definition? hfound) hline

theorem Collects.eq_nil {line : List TypeDefinition} (hline : schema.Collects owner line)
    (hfound : schema.definition? owner = none) : line = [] := by
  rw [Collects, hfound] at hline
  cases hline
  rfl

/-- What the loop collects is the lineage. -/
theorem Collects.mem_iff {line : List TypeDefinition} (hline : schema.Collects owner line) :
    other ∈ line ↔ other ∈ schema.lineage owner := by
  rw [lineage]
  cases hfound : schema.definition? owner with
  | none => rw [hline.eq_nil hfound, Option.map_none, Option.getD_none]
  | some definition =>
    rw [Option.map_some, Option.getD_some, (hline.ancestry_spec hfound).2,
      mem_ancestry_length_iff (mem_definitions_of_definition? hfound).1]

/-- The first declaration that the loop collects is the one that is inherited. -/
theorem Collects.findSome?_eq {line : List TypeDefinition} (hline : schema.Collects owner line)
    (find : TypeDefinition → Option α) : line.findSome? find = (schema.lineage owner).findSome? find := by
  rw [lineage]
  cases hfound : schema.definition? owner with
  | none => rw [hline.eq_nil hfound, Option.map_none, Option.getD_none]
  | some definition =>
    obtain ⟨hancestry, hmem⟩ := hline.ancestry_spec hfound
    have hall : ∀ steps other, schema.ancestor? steps definition = some other →
        other ∈ schema.ancestry line.length definition := by
      intro steps other hsteps
      rw [← hancestry]
      exact (hmem other).mpr ⟨steps, hsteps⟩
    have hlineage : ∀ steps other, schema.ancestor? steps definition = some other →
        other ∈ schema.ancestry schema.definitions.length definition := fun steps other =>
      mem_ancestry_of_ancestor?_eq (mem_definitions_of_definition? hfound).1
    rw [Option.map_some, Option.getD_some, hancestry]
    apply Option.ext
    intro member
    rw [findSome?_ancestry_eq_some_iff_of_forall_mem hall,
      findSome?_ancestry_eq_some_iff_of_forall_mem hlineage]

/-! ## The loop that looks for a type -/

/-- The loop that looks for the type `expected`, which has met the types `met`, looks at the type
`here?` if there is one, and ends with the answer. -/
inductive Search (schema : Schema) (expected : StructuredType) :
    List StructuredType → Option StructuredType → Bool → Prop
  | ended {met : List StructuredType} : Search schema expected met none false
  | found {met : List StructuredType} : Search schema expected met (some expected) true
  | back {met : List StructuredType} {here : StructuredType} (hother : here ≠ expected)
      (hmet : here ∈ met) : Search schema expected met (some here) false
  | on {met : List StructuredType} {here : StructuredType} {answer : Bool} (hother : here ≠ expected)
      (hfresh : here ∉ met) (hrest : Search schema expected (met ++ [here]) (schema.base? here) answer) :
      Search schema expected met (some here) answer

theorem Search.unique {met : List StructuredType} {here? : Option StructuredType} {first second : Bool}
    (hfirst : schema.Search expected met here? first)
    (hsecond : schema.Search expected met here? second) : first = second := by
  induction hfirst with
  | ended =>
    cases hsecond
    rfl
  | found =>
    cases hsecond with
    | found => rfl
    | back hother => exact absurd rfl hother
    | on hother => exact absurd rfl hother
  | back hother hmet =>
    cases hsecond with
    | found => exact absurd rfl hother
    | back => rfl
    | on _ hfresh => exact absurd hmet hfresh
  | on hother hfresh _ ih =>
    cases hsecond with
    | found => exact absurd rfl hother
    | back _ hmet => exact absurd hmet hfresh
    | on _ _ hrest => exact ih hrest

/-- The loop finds the type if a walk that does not look for it meets it. -/
theorem search_of_walk {met line : List StructuredType} {here? : Option StructuredType}
    (hwalk : Walk schema.base? id met here? line) (hmet : expected ∉ met) :
    schema.Search expected met here? (decide (expected ∈ line)) := by
  induction hwalk with
  | ended =>
    rw [decide_eq_false hmet]
    exact .ended
  | back hback =>
    rw [List.map_id] at hback
    rw [decide_eq_false hmet]
    exact .back (ne_of_mem_of_not_mem hback hmet) hback
  | @on met line here hfresh hrest ih =>
    rw [List.map_id] at hfresh
    by_cases hhere : here = expected
    · subst hhere
      have hmem : here ∈ line := hrest.met_prefix.subset List.mem_concat_self
      rw [decide_eq_true hmem]
      exact .found
    · have hmet' : expected ∉ met ++ [here] := by
        rw [List.mem_append, List.mem_singleton]
        exact not_or_intro hmet fun heq => hhere heq.symm
      exact .on hhere hfresh (ih hmet')

/-- A type and those of the schema. -/
def typesWith (schema : Schema) (type : StructuredType) : List StructuredType :=
  type :: schema.definitions.map TypeDefinition.type

theorem ground_typesWith (schema : Schema) (type : StructuredType) :
    Walk.Ground schema.base? id (schema.typesWith type) where
  closed _ _ _ hbase := by
    obtain ⟨definition, hdefinition, rfl⟩ := Option.map_eq_some_iff.mp hbase
    obtain ⟨_, -, hfound⟩ := Option.bind_eq_some_iff.mp hdefinition
    exact List.mem_cons_of_mem _ (List.mem_map_of_mem (mem_definitions_of_baseDefinition? hfound))
  apart _ _ _ _ hsame := hsame

/-- The loop ends with the answer whether the types are compatible. -/
theorem search_isCompatible (schema : Schema) (candidate expected : StructuredType) :
    schema.Search expected [] (some candidate) (schema.isCompatible candidate expected) := by
  have hstart : candidate ∈ schema.typesWith candidate := List.mem_cons_self
  have hhere : ∀ here ∈ some candidate, here ∈ schema.typesWith candidate := by
    rintro _ ⟨⟩
    exact hstart
  obtain ⟨line, hwalk, -⟩ := (schema.ground_typesWith candidate).exists_unique hhere
  have hanswer : schema.isCompatible candidate expected = decide (expected ∈ line) := by
    rw [Bool.eq_iff_iff, isCompatible_iff, decide_eq_true_eq]
    exact ((schema.ground_typesWith candidate).mem_line_iff hstart hwalk).symm
  rw [hanswer]
  exact search_of_walk hwalk List.not_mem_nil

/-! ## What a type derives from -/

/-- How a member, which a definition declares as `find` tells, is resolved by `resolve?`. -/
structure Inherits (schema : Schema) (resolve? : StructuredType → Option α)
    (find : TypeDefinition → Option α) : Prop where
  /-- It is the first declaration among the definitions that the loop collects. -/
  eq_findSome? (owner : StructuredType) (line : List TypeDefinition) (hline : schema.Collects owner line) :
    resolve? owner = line.findSome? find
  /-- There is one exactly if a type that the owner is compatible with declares it. -/
  isSome_iff (owner : StructuredType) :
    (resolve? owner).isSome ↔
      ∃ type, schema.isCompatible owner type = true ∧ (schema.declared? find type).isSome
  /-- It is the declaration of the nearest type that has one. -/
  eq_some_iff (owner : StructuredType) (member : α) :
    resolve? owner = some member ↔
      ∃ steps, (schema.ascend? steps owner).bind (schema.declared? find) = some member ∧
        ∀ fewer < steps, (schema.ascend? fewer owner).bind (schema.declared? find) = none
  /-- What is resolved for a type is resolved for all that are compatible with it. -/
  passes_on (derived owner : StructuredType) (hderived : schema.isCompatible derived owner = true)
    (howner : (resolve? owner).isSome) : (resolve? derived).isSome

/-- Both loops along base types end, and what they tell agrees with the steps from base to base. -/
structure WalksAgree (schema : Schema) : Prop where
  collects (owner : StructuredType) : ∃! line, schema.Collects owner line
  searches (candidate expected : StructuredType) (answer : Bool) :
    schema.Search expected [] (some candidate) answer ↔ answer = schema.isCompatible candidate expected
  /-- The first loop collects the definitions of the types that the second one finds. -/
  mem_iff (owner : StructuredType) (line : List TypeDefinition) (hline : schema.Collects owner line)
    (definition : TypeDefinition) :
    definition ∈ line ↔
      ∃ type, schema.isCompatible owner type = true ∧ schema.definition? type = some definition
  compatible_iff (candidate expected : StructuredType) :
    schema.isCompatible candidate expected = true ↔
      ∃ steps, schema.ascend? steps candidate = some expected
  refl (type : StructuredType) : schema.isCompatible type type = true
  trans (first second third : StructuredType) (hfirst : schema.isCompatible first second = true)
    (hsecond : schema.isCompatible second third = true) : schema.isCompatible first third = true
  property (name : String) : schema.Inherits (schema.property? · name) (·.properties.find? name)
  navigation (name : String) : schema.Inherits (schema.navigation? · name) (·.navigations.find? name)

theorem inherits_lineage (schema : Schema) (find : TypeDefinition → Option α) :
    schema.Inherits (fun owner => (schema.lineage owner).findSome? find) find where
  eq_findSome? _ _ hline := (hline.findSome?_eq find).symm
  isSome_iff _ := isSome_findSome?_lineage_iff
  eq_some_iff _ _ := findSome?_lineage_eq_some_iff
  passes_on derived owner hderived howner := by
    obtain ⟨type, hcompatible, hdeclared⟩ := isSome_findSome?_lineage_iff.mp howner
    exact isSome_findSome?_lineage_iff.mpr ⟨type, isCompatible_trans hderived hcompatible, hdeclared⟩

/-- On every schema the two loops agree. -/
theorem walks_agree (schema : Schema) : schema.WalksAgree where
  collects := schema.exists_unique_collects
  searches candidate expected answer := by
    have hsearch := schema.search_isCompatible candidate expected
    constructor
    · exact fun hanswer => hanswer.unique hsearch
    · rintro rfl
      exact hsearch
  mem_iff _ _ hline _ := hline.mem_iff.trans mem_lineage_iff_isCompatible
  compatible_iff _ _ := isCompatible_iff
  refl := schema.isCompatible_refl
  trans _ _ _ := isCompatible_trans
  property name := schema.inherits_lineage (·.properties.find? name)
  navigation name := schema.inherits_lineage (·.navigations.find? name)

def circle : Schema :=
  .ofList [
    { name := ⟨"Round", "Left"⟩, kind := .entity, base := some ⟨"Round", "Right"⟩
      properties := .ofList [⟨"Hue", .primitive .string, false⟩] },
    { name := ⟨"Round", "Right"⟩, kind := .entity, base := some ⟨"Round", "Left"⟩ }]

example :
    circle.isCompatible (.entity ⟨"Round", "Left"⟩) (.entity ⟨"Round", "Right"⟩) = true ∧
      circle.property? (.entity ⟨"Round", "Right"⟩) "Hue" = some ⟨"Hue", .primitive .string, false⟩ ∧
      circle.property? (.entity ⟨"Round", "Right"⟩) "Tone" = none := by
  decide

end ODataOptions.Schema
