import Mathlib.Algebra.GroupWithZero.Nat
import ODataOptions.Proofs.NameTable
import ODataOptions.Proofs.Query.RoundTrip

/-!
# Queries with their parts in another order

The aliases of a query are collected before any option is read, and the options are of different kinds.  So
the parts of a query may come in any order.  Only the custom options, which are kept as a list, and the
definitions of one alias, of which the last one counts, keep their places among each other.
-/

namespace ODataOptions

/-! ## Options in another order -/

namespace OptionSet

variable {Expansion : Type} {options : OptionSet Expansion} {first second : SystemOption Expansion}

theorem contains_set (options : OptionSet Expansion) (option : SystemOption Expansion)
    (kind : OptionKind) :
    (options.set option).contains kind = (decide (option.kind = kind) || options.contains kind) := by
  rw [contains, get?_set]
  by_cases hkind : option.kind = kind
  · rw [if_pos hkind, decide_eq_true hkind]
    rfl
  · rw [if_neg hkind, decide_eq_false hkind]
    rfl

/-- Options of different kinds have places of their own in a set. -/
theorem set_comm (hne : first.kind ≠ second.kind) :
    (options.set first).set second = (options.set second).set first := by
  apply ext_get?
  intro kind
  rw [get?_set, get?_set, get?_set, get?_set]
  by_cases hfirst : first.kind = kind
  · have hsecond : second.kind ≠ kind := fun h => hne (hfirst.trans h.symm)
    rw [if_neg hsecond, if_pos hfirst, if_pos hfirst]
  · rw [if_neg hfirst, if_neg hfirst]

end OptionSet

namespace Query

section Options

variable {scope : Scope} {owner : StructuredType} {start middle result : OptionSet Expand}
  {first second : QueryPart} {parts others : List QueryPart}

/-- Two options can be added in either order. -/
theorem addOption_swap (hfirst : addOption scope owner start first = .ok middle)
    (hsecond : addOption scope owner middle second = .ok result) :
    ∃ other, addOption scope owner start second = .ok other ∧
      addOption scope owner other first = .ok result := by
  obtain ⟨kind, option, hkind, hread, hfree, rfl⟩ := addOption_eq_ok_iff.mp hfirst
  obtain ⟨kind', option', hkind', hread', hfree', rfl⟩ := addOption_eq_ok_iff.mp hsecond
  rw [OptionSet.contains_set, Bool.or_eq_false_iff, decide_eq_false_iff_not] at hfree'
  obtain ⟨hne, hfree'⟩ := hfree'
  refine ⟨start.set option', addOption_eq_ok_iff.mpr ⟨kind', option', hkind', hread', hfree', rfl⟩,
    addOption_eq_ok_iff.mpr ⟨kind, option, hkind, hread, ?_, OptionSet.set_comm hne⟩⟩
  rw [OptionSet.contains_set, hfree, Bool.or_false]
  exact decide_eq_false (Ne.symm hne)

/-- Options that can all be added can be added in any order, with the same result. -/
theorem foldlM_addOption_of_perm (hperm : parts.Perm others)
    (hfold : parts.foldlM (addOption scope owner) start = .ok result) :
    others.foldlM (addOption scope owner) start = .ok result := by
  induction hperm generalizing start with
  | nil => exact hfold
  | cons part _ ih =>
    rw [List.foldlM_cons, Fault.bind_eq_ok_iff] at hfold ⊢
    obtain ⟨middle, hadd, hfold⟩ := hfold
    exact ⟨middle, hadd, ih hfold⟩
  | swap part other parts =>
    simp only [List.foldlM_cons, Fault.bind_eq_ok_iff] at hfold ⊢
    obtain ⟨middle, hother, both, hpart, hfold⟩ := hfold
    obtain ⟨middle', hpart', hother'⟩ := addOption_swap hother hpart
    exact ⟨middle', hpart', both, hother', hfold⟩
  | trans _ _ ih ih' => exact ih' (ih hfold)

end Options

end Query

/-! ## Written parts -/

theorem utf8ByteSize_intercalate (separator : String) {texts : List String} (hne : texts ≠ []) :
    (separator.intercalate texts).utf8ByteSize + separator.utf8ByteSize =
      (texts.map fun text => text.utf8ByteSize + separator.utf8ByteSize).sum := by
  induction texts with
  | nil => exact absurd rfl hne
  | cons text texts ih =>
    cases texts with
    | nil => simp
    | cons next texts =>
      rw [String.intercalate_cons_cons, String.utf8ByteSize_append, String.utf8ByteSize_append,
        List.map_cons, List.sum_cons, ← ih (List.cons_ne_nil next texts)]
      omega

/-- Joined texts are as long in any order. -/
theorem utf8ByteSize_intercalate_perm (separator : String) {texts others : List String}
    (hperm : texts.Perm others) :
    (separator.intercalate texts).utf8ByteSize = (separator.intercalate others).utf8ByteSize := by
  by_cases hnil : texts = []
  · subst hnil
    rw [hperm.nil_eq]
  · have hnil' : others ≠ [] := by
      rintro rfl
      exact hnil hperm.eq_nil
    apply Nat.add_right_cancel (m := separator.utf8ByteSize)
    rw [utf8ByteSize_intercalate separator hnil, utf8ByteSize_intercalate separator hnil']
    exact (hperm.map _).sum_nat

namespace QueryPart

def ofWritten (text : String) : QueryPart := ofText text.toList

def defines (name : String) (part : QueryPart) : Bool :=
  part.parameterAlias?.any fun definition => definition.name = name

/-- The text can be a part of a query: it is not empty, and no ampersand ends it early. -/
def IsWritten (text : String) : Prop := text ≠ "" ∧ '&' ∉ text.toList

instance (text : String) : Decidable (IsWritten text) := inferInstanceAs (Decidable (_ ∧ _))

/-- The same parts in another order, in which the custom ones, and those that define one alias, come in
the same order as before. -/
structure Rearranged (texts others : List String) : Prop where
  perm : texts.Perm others
  custom : texts.filter (fun text => (ofWritten text).isCustom) =
    others.filter fun text => (ofWritten text).isCustom
  aliases : ∀ name, texts.filter (fun text => (ofWritten text).defines name) =
    others.filter fun text => (ofWritten text).defines name

variable {texts others : List String}

theorem Rearranged.symm (hsame : Rearranged texts others) : Rearranged others texts :=
  ⟨hsame.perm.symm, hsame.custom.symm, fun name => (hsame.aliases name).symm⟩

/-- In particular all the aliases may keep their order. -/
theorem Rearranged.of_filter (hperm : texts.Perm others)
    (hcustom : texts.filter (fun text => (ofWritten text).isCustom) =
      others.filter fun text => (ofWritten text).isCustom)
    (haliases : texts.filter (fun text => (ofWritten text).parameterAlias?.isSome) =
      others.filter fun text => (ofWritten text).parameterAlias?.isSome) :
    Rearranged texts others := by
  have hfilter : ∀ (texts : List String) (name : String),
      texts.filter (fun text => (ofWritten text).defines name) =
        (texts.filter fun text => (ofWritten text).parameterAlias?.isSome).filter fun text =>
          (ofWritten text).defines name := by
    intro texts name
    rw [List.filter_filter]
    congr 1
    funext text
    rw [defines]
    cases (ofWritten text).parameterAlias? <;> simp
  refine ⟨hperm, hcustom, fun name => ?_⟩
  rw [hfilter texts, hfilter others, haliases]

/-- Parts that are written with ampersands between them are split again. -/
theorem split_written (hwritten : ∀ text ∈ texts, IsWritten text) :
    ((Text.split '&' (['&'].intercalate (texts.map String.toList))).filter (· ≠ [])).map ofText =
      texts.map ofWritten := by
  rw [Text.split_eq_splitOn]
  by_cases hnil : texts = []
  · subst hnil
    rfl
  · have hampersand : ∀ text ∈ texts.map String.toList, '&' ∉ text :=
      List.forall_mem_map.mpr fun text hmem => (hwritten text hmem).2
    have hnonempty : ∀ text ∈ texts.map String.toList, decide (text ≠ []) = true := by
      refine List.forall_mem_map.mpr ?_
      intro text hmem
      apply decide_eq_true
      intro hempty
      exact (hwritten text hmem).1 (String.toList_eq_nil_iff.mp hempty)
    rw [List.splitOn_intercalate '&' hampersand (by simpa using hnil),
      List.filter_eq_self.mpr hnonempty, List.map_map]
    rfl

/-- The parts are written behind a question mark, with ampersands between them. -/
theorem listOf_written (hwritten : ∀ text ∈ texts, IsWritten text) :
    listOf ("?" ++ "&".intercalate texts) = texts.map ofWritten := by
  rw [← split_written hwritten, listOf, String.toList_append, String.toList_intercalate]
  rfl

/-- The question mark may be left out, if the first part does not begin with one. -/
theorem listOf_written_of_head? (hwritten : ∀ text ∈ texts, IsWritten text)
    (hfirst : ("&".intercalate texts).toList.head? ≠ some '?') :
    listOf ("&".intercalate texts) = texts.map ofWritten := by
  rw [← split_written hwritten, listOf]
  split
  · next hlist => exact absurd (by rw [hlist]; rfl) hfirst
  · rw [String.toList_intercalate]
    rfl

theorem filter_filterMap_parameterAlias? (parts : List QueryPart) (name : String) :
    (parts.filterMap parameterAlias?).filter (nameOf · = name) =
      (parts.filter (defines name)).filterMap parameterAlias? := by
  rw [List.filter_filterMap, List.filterMap_filter]
  apply List.filterMap_congr
  intro part _
  rw [defines]
  cases part.parameterAlias? with
  | none => rfl
  | some definition => rfl

/-- The aliases are the same in another order. -/
theorem Rearranged.ofList_eq (hsame : Rearranged texts others) :
    NameTable.ofList ((texts.map ofWritten).filterMap parameterAlias?) =
      NameTable.ofList ((others.map ofWritten).filterMap parameterAlias?) := by
  apply NameTable.ofList_congr
  intro name
  rw [filter_filterMap_parameterAlias?, filter_filterMap_parameterAlias?, List.filter_map,
    List.filter_map]
  exact congrArg (fun texts => (List.map ofWritten texts).filterMap parameterAlias?)
    (hsame.aliases name)

end QueryPart

/-! ## Queries -/

namespace Query

open QueryPart

variable {schema : Schema} {limits : Limits} {owner : StructuredType} {texts others : List String}
  {query : Query}

theorem read_of_rearranged (hsame : Rearranged texts others)
    (hwritten : ∀ text ∈ texts, IsWritten text)
    (hread : read schema limits owner ("?" ++ "&".intercalate texts) = .ok query) :
    read schema limits owner ("?" ++ "&".intercalate others) = .ok query := by
  have hwritten' : ∀ text ∈ others, IsWritten text := fun text hmem =>
    hwritten text (hsame.perm.mem_iff.mpr hmem)
  rw [read_eq_ok_iff, listOf_written hwritten] at hread
  rw [read_eq_ok_iff, listOf_written hwritten']
  obtain ⟨hlength, haliases, hsystem, hcustom⟩ := hread
  have hsize := utf8ByteSize_intercalate_perm "&" hsame.perm
  refine ⟨?_, ?_, ?_, ?_⟩
  · rw [String.utf8ByteSize_append] at hlength ⊢
    rwa [← hsize]
  · rw [← hsame.ofList_eq]
    exact haliases
  · exact foldlM_addOption_of_perm ((hsame.perm.map ofWritten).filter isSystem) hsystem
  · rw [List.filter_map] at hcustom ⊢
    rw [← hcustom]
    exact congrArg (fun texts => (List.map ofWritten texts).map fun part => (part.name, part.value))
      hsame.custom.symm

/-- The order of the parts does not matter, except that of the custom options among each other and that
of the definitions of one alias.  So an option may refer to an alias that is defined behind it. -/
theorem read_rearranged_iff (schema : Schema) (limits : Limits) (owner : StructuredType)
    (texts others : List String) (hwritten : ∀ text ∈ texts, IsWritten text)
    (hsame : Rearranged texts others) (query : Query) :
    read schema limits owner ("?" ++ "&".intercalate texts) = .ok query ↔
      read schema limits owner ("?" ++ "&".intercalate others) = .ok query := by
  have hwritten' : ∀ text ∈ others, IsWritten text := fun text hmem =>
    hwritten text (hsame.perm.mem_iff.mpr hmem)
  exact ⟨read_of_rearranged hsame hwritten, read_of_rearranged hsame.symm hwritten'⟩

theorem read_rearranged_shop :
    ∃ query, read .shop {} .shopCustomer ("?" ++ "&".intercalate
        ["$filter=Age gt @least", "a=1", "%40least=18", "%24top=2", "a=2"]) = .ok query ∧
      read .shop {} .shopCustomer ("?" ++ "&".intercalate
        ["%24top=2", "%40least=18", "a=1", "$filter=Age gt @least", "a=2"]) = .ok query := by
  have hread : ∃ query, read .shop {} .shopCustomer ("?" ++ "&".intercalate
      ["$filter=Age gt @least", "a=1", "%40least=18", "%24top=2", "a=2"]) = .ok query :=
    Fault.exists_ok_of_isOk (by decide +kernel)
  have hsame : Rearranged ["$filter=Age gt @least", "a=1", "%40least=18", "%24top=2", "a=2"]
      ["%24top=2", "%40least=18", "a=1", "$filter=Age gt @least", "a=2"] :=
    .of_filter (by decide +kernel) (by decide +kernel) (by decide +kernel)
  obtain ⟨query, hread⟩ := hread
  exact ⟨query, hread,
    (read_rearranged_iff .shop {} .shopCustomer _ _ (by decide +kernel) hsame query).mp hread⟩

end Query

end ODataOptions
