import Mathlib.Data.Finset.Card
import ODataOptions.Proofs.Schema.Lookup

/-!
# Lines of base types

Each definition has one base at most, so its line of base types either ends or comes back to a definition
that it has met.  A schema has no more definitions than it lists.  Therefore as many steps as it lists
definitions are enough to meet the whole line, even where the bases go in a circle, and a longer walk
finds nothing else.
-/

namespace ODataOptions.Schema

variable {schema : Schema} {definition other : TypeDefinition} {count : Nat}

theorem mem_definitions_of_baseDefinition? (hbase : schema.baseDefinition? definition = some other) :
    other ∈ schema.definitions := by
  obtain ⟨name, -, hfound⟩ := Option.bind_eq_some_iff.mp hbase
  exact (mem_definitions_of_definition? hfound).1

/-! ## Ancestors by their distance -/

/-- The definition that so many steps to a base lead to. -/
def ancestor? (schema : Schema) : Nat → TypeDefinition → Option TypeDefinition
  | 0, definition => some definition
  | count + 1, definition => (schema.baseDefinition? definition).bind (schema.ancestor? count)

theorem ancestor?_add (first second : Nat) (definition : TypeDefinition) :
    schema.ancestor? (first + second) definition =
      (schema.ancestor? first definition).bind (schema.ancestor? second) := by
  induction first generalizing definition with
  | zero => rw [Nat.zero_add, ancestor?, Option.bind_some]
  | succ first ih =>
    rw [Nat.succ_add, ancestor?, ancestor?, Option.bind_assoc]
    congr 1
    funext base
    exact ih base

/-- One step more adds the definition that it leads to, at the end. -/
theorem ancestry_succ (count : Nat) (definition : TypeDefinition) :
    schema.ancestry (count + 1) definition =
      schema.ancestry count definition ++ (schema.ancestor? count definition).toList := by
  induction count generalizing definition with
  | zero =>
    rw [ancestry, ancestry, ancestor?]
    cases schema.baseDefinition? definition <;> rfl
  | succ count ih =>
    rw [ancestry, ancestor?]
    cases hbase : schema.baseDefinition? definition with
    | none =>
      rw [ancestry, hbase]
      rfl
    | some base =>
      rw [ancestry, hbase, Option.map_some, Option.map_some, Option.getD_some, Option.getD_some,
        Option.bind_some, ih base, List.cons_append]

/-- Up to a count, the ancestry holds what fewer steps lead to. -/
theorem mem_ancestry_iff :
    other ∈ schema.ancestry count definition ↔
      ∃ distance < count, schema.ancestor? distance definition = some other := by
  induction count with
  | zero => simp [ancestry]
  | succ count ih =>
    rw [ancestry_succ, List.mem_append, ih, Option.mem_toList]
    constructor
    · rintro (⟨distance, hlt, hfound⟩ | hfound)
      · exact ⟨distance, Nat.lt_succ_of_lt hlt, hfound⟩
      · exact ⟨count, Nat.lt_succ_self _, hfound⟩
    · rintro ⟨distance, hlt, hfound⟩
      rcases Nat.lt_succ_iff_lt_or_eq.mp hlt with hlt | rfl
      · exact .inl ⟨distance, hlt, hfound⟩
      · exact .inr hfound

theorem mem_definitions_of_ancestor? (hmem : definition ∈ schema.definitions)
    (hfound : schema.ancestor? count definition = some other) : other ∈ schema.definitions := by
  induction count generalizing definition with
  | zero =>
    cases hfound
    exact hmem
  | succ count ih =>
    obtain ⟨base, hbase, hrest⟩ := Option.bind_eq_some_iff.mp hfound
    exact ih (mem_definitions_of_baseDefinition? hbase) hrest

/-! ## The walk comes round -/

/-- A walk of as many steps as there are definitions meets one of them twice. -/
theorem exists_ancestor?_eq (hmem : definition ∈ schema.definitions)
    (hfound : schema.ancestor? schema.definitions.length definition = some other) :
    ∃ first second, first < second ∧ second ≤ schema.definitions.length ∧
      schema.ancestor? first definition = schema.ancestor? second definition := by
  have hsome : ∀ distance ≤ schema.definitions.length,
      ∃ met, schema.ancestor? distance definition = some met := by
    intro distance hle
    obtain ⟨more, hmore⟩ := Nat.exists_eq_add_of_le hle
    rw [hmore, ancestor?_add] at hfound
    obtain ⟨met, hmet, -⟩ := Option.bind_eq_some_iff.mp hfound
    exact ⟨met, hmet⟩
  have hmet : ∀ distance ∈ Finset.range (schema.definitions.length + 1),
      schema.ancestor? distance definition ∈ schema.definitions.toFinset.image some := by
    intro distance hdistance
    obtain ⟨met, hancestor⟩ := hsome distance (Nat.le_of_lt_succ (Finset.mem_range.mp hdistance))
    rw [hancestor]
    exact Finset.mem_image_of_mem some
      (List.mem_toFinset.mpr (mem_definitions_of_ancestor? hmem hancestor))
  have hcard : (schema.definitions.toFinset.image some).card <
      (Finset.range (schema.definitions.length + 1)).card := by
    rw [Finset.card_range]
    exact Nat.lt_succ_of_le (Finset.card_image_le.trans (List.toFinset_card_le _))
  obtain ⟨first, hfirst, second, hsecond, hne, hsame⟩ :=
    Finset.exists_ne_map_eq_of_card_lt_of_maps_to hcard hmet
  have hfirst' := Nat.le_of_lt_succ (Finset.mem_range.mp hfirst)
  have hsecond' := Nat.le_of_lt_succ (Finset.mem_range.mp hsecond)
  rcases Nat.lt_or_gt_of_ne hne with hlt | hgt
  · exact ⟨first, second, hlt, hsecond', hsame⟩
  · exact ⟨second, first, hgt, hfirst', hsame.symm⟩

/-- What the last of these steps leads to has been met before. -/
theorem mem_ancestry_of_ancestor? (hmem : definition ∈ schema.definitions)
    (hfound : schema.ancestor? schema.definitions.length definition = some other) :
    other ∈ schema.ancestry schema.definitions.length definition := by
  obtain ⟨first, second, hlt, hle, hsame⟩ := exists_ancestor?_eq hmem hfound
  obtain ⟨more, hmore⟩ := Nat.exists_eq_add_of_le hle
  rw [mem_ancestry_iff]
  refine ⟨first + more, by omega, ?_⟩
  rw [ancestor?_add, hsame, ← ancestor?_add, ← hmore, hfound]

/-- One step more than there are definitions finds nothing else. -/
theorem findSome?_ancestry_succ {α : Type} (find : TypeDefinition → Option α)
    (hmem : definition ∈ schema.definitions) :
    (schema.ancestry (schema.definitions.length + 1) definition).findSome? find =
      (schema.ancestry schema.definitions.length definition).findSome? find := by
  rw [ancestry_succ, List.findSome?_append]
  cases hfirst : (schema.ancestry schema.definitions.length definition).findSome? find with
  | some found => rfl
  | none =>
    rw [Option.none_or]
    cases hlast : schema.ancestor? schema.definitions.length definition with
    | none => rfl
    | some other =>
      have hother := List.findSome?_eq_none_iff.mp hfirst other (mem_ancestry_of_ancestor? hmem hlast)
      rw [Option.toList_some, List.findSome?_singleton, hother]

/-- One step more than there are definitions leads to no new one. -/
theorem mem_ancestry_succ_iff (hmem : definition ∈ schema.definitions) :
    other ∈ schema.ancestry (schema.definitions.length + 1) definition ↔
      other ∈ schema.ancestry schema.definitions.length definition := by
  rw [ancestry_succ, List.mem_append, Option.mem_toList]
  exact or_iff_left_of_imp (mem_ancestry_of_ancestor? hmem)

/-- A line of base types stays among the definitions of the schema. -/
theorem mem_definitions_of_mem_lineage {type : StructuredType}
    (hmem : other ∈ schema.lineage type) : other ∈ schema.definitions := by
  rw [lineage] at hmem
  cases hfound : schema.definition? type with
  | none =>
    rw [hfound] at hmem
    cases hmem
  | some definition =>
    rw [hfound] at hmem
    obtain ⟨distance, -, hother⟩ := mem_ancestry_iff.mp hmem
    exact mem_definitions_of_ancestor? (mem_definitions_of_definition? hfound).1 hother

end ODataOptions.Schema
