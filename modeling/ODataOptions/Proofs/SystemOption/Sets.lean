import Mathlib.Data.List.Nodup
import ODataOptions.Proofs.SystemOption.Validity

/-!
# Sets of options and their lists

A set is determined by its options of each kind.  The list of its options is in the order of their kinds,
so it has one of each kind at most, and the set of that list is the set itself.
-/

namespace ODataOptions

/-! ## The order of kinds -/

namespace OptionKind

/-- Kinds are in the order of their declaration. -/
instance : LT OptionKind := ⟨fun kind other => kind.ctorIdx < other.ctorIdx⟩

instance : DecidableLT OptionKind :=
  fun kind other => inferInstanceAs (Decidable (kind.ctorIdx < other.ctorIdx))

theorem ne_of_lt {kind other : OptionKind} (hlt : kind < other) : kind ≠ other := by
  rintro rfl
  exact Nat.lt_irrefl _ hlt

theorem pairwise_all : all.Pairwise (· < ·) := by decide

end OptionKind

/-! ## Options of a set -/

namespace OptionSet

variable {Expansion Other : Type} {options : OptionSet Expansion} {kind : OptionKind}
  {option : SystemOption Expansion}

/-- A set is known by what it has of each kind. -/
theorem ext_get? {first second : OptionSet Expansion}
    (hget : ∀ kind, first.get? kind = second.get? kind) : first = second := by
  obtain ⟨count, expand, filter, levels, orderBy, search, select, skip, top⟩ := first
  have hcount := Option.map_injective (fun _ _ => SystemOption.count.inj) (hget .count)
  have hexpand := Option.map_injective (fun _ _ => SystemOption.expand.inj) (hget .expand)
  have hfilter := Option.map_injective (fun _ _ => SystemOption.filter.inj) (hget .filter)
  have hlevels := Option.map_injective (fun _ _ => SystemOption.levels.inj) (hget .levels)
  have horderBy := Option.map_injective (fun _ _ => SystemOption.orderBy.inj) (hget .orderBy)
  have hsearch := Option.map_injective (fun _ _ => SystemOption.search.inj) (hget .search)
  have hselect := Option.map_injective (fun _ _ => SystemOption.select.inj) (hget .select)
  have hskip := Option.map_injective (fun _ _ => SystemOption.skip.inj) (hget .skip)
  have htop := Option.map_injective (fun _ _ => SystemOption.top.inj) (hget .top)
  subst hcount hexpand hfilter hlevels horderBy hsearch hselect hskip htop
  rfl

/-- An option is listed exactly if it is the one of its kind. -/
theorem mem_toList : option ∈ options.toList ↔ options.get? option.kind = some option := by
  rw [toList, List.mem_filterMap]
  constructor
  · rintro ⟨kind, -, hget⟩
    rwa [kind_of_get? hget]
  · exact fun hget => ⟨option.kind, option.kind.mem_all, hget⟩

/-- Options that are found each under its own kind are listed in the order of their kinds. -/
theorem pairwise_kind_filterMap {stored : OptionKind → Option (SystemOption Expansion)}
    (hfiled : ∀ kind option, stored kind = some option → option.kind = kind) :
    (OptionKind.all.filterMap stored).Pairwise fun first second => first.kind < second.kind := by
  refine List.pairwise_filterMap.mpr (OptionKind.pairwise_all.imp ?_)
  intro kind other hlt first hfirst second hsecond
  rwa [hfiled kind first hfirst, hfiled other second hsecond]

/-- Options are listed in the order of their kinds. -/
theorem pairwise_kind_lt (options : OptionSet Expansion) :
    options.toList.Pairwise fun first second => first.kind < second.kind :=
  pairwise_kind_filterMap fun _ _ => kind_of_get?

/-- The list has no two options of one kind. -/
theorem pairwise_kind_ne (options : OptionSet Expansion) :
    options.toList.Pairwise fun first second => first.kind ≠ second.kind :=
  (pairwise_kind_lt options).imp OptionKind.ne_of_lt

theorem find?_toList (options : OptionSet Expansion) (kind : OptionKind) :
    (options.toList.find? fun option => option.kind = kind) = options.get? kind := by
  cases hfind : options.toList.find? fun option => option.kind = kind with
  | none =>
    rw [List.find?_eq_none] at hfind
    cases hget : options.get? kind with
    | none => rfl
    | some option =>
      have hkind := kind_of_get? hget
      refine absurd (decide_eq_true hkind) (hfind option (mem_toList.mpr ?_))
      rwa [hkind]
  | some option =>
    have hkind : option.kind = kind := by simpa using List.find?_some hfind
    have hget := mem_toList.mp (List.mem_of_find?_eq_some hfind)
    rw [← hkind, hget]

section Distinct

variable {list list' : List (SystemOption Expansion)} (hkinds : (list.map SystemOption.kind).Nodup)

include hkinds

/-- The set of options of different kinds has each of them, and nothing else. -/
theorem get?_ofList_eq_some_iff :
    (ofList list).get? kind = some option ↔ option ∈ list ∧ option.kind = kind := by
  rw [get?_ofList]
  constructor
  · intro hfind
    exact ⟨List.mem_of_find?_eq_some hfind, by simpa using List.find?_some hfind⟩
  · rintro ⟨hmem, hkind⟩
    obtain ⟨found, hfind⟩ : ∃ found, list.find? (fun option => option.kind = kind) = some found := by
      rw [← Option.isSome_iff_exists, List.find?_isSome]
      exact ⟨option, hmem, decide_eq_true hkind⟩
    have hsame : found.kind = option.kind := by
      have hfound := List.find?_some hfind
      rw [decide_eq_true_eq] at hfound
      rw [hfound, hkind]
    rw [hfind, List.inj_on_of_nodup_map hkinds (List.mem_of_find?_eq_some hfind) hmem hsame]

theorem mem_toList_ofList : option ∈ (ofList list).toList ↔ option ∈ list := by
  rw [mem_toList, get?_ofList_eq_some_iff hkinds, and_iff_left rfl]

theorem size_ofList : (ofList list).size = list.length := by
  have hset : (ofList list).toList.Nodup := by
    refine (pairwise_kind_ne _).imp ?_
    rintro first _ hne rfl
    exact hne rfl
  have hperm : (ofList list).toList.Perm list := by
    rw [List.perm_ext_iff_of_nodup hset (List.Nodup.of_map _ hkinds)]
    exact fun option => mem_toList_ofList hkinds
  exact hperm.length_eq

/-- The order of options of different kinds does not matter. -/
theorem ofList_perm (hperm : list.Perm list') : ofList list = ofList list' := by
  have hkinds' := ((hperm.map SystemOption.kind).nodup_iff).mp hkinds
  apply ext_get?
  intro kind
  apply Option.ext
  intro option
  rw [get?_ofList_eq_some_iff hkinds, get?_ofList_eq_some_iff hkinds', hperm.mem_iff]

end Distinct

/-- The set of the list of a set. -/
theorem ofList_toList (options : OptionSet Expansion) : ofList options.toList = options :=
  ext_get? fun kind => by rw [get?_ofList, find?_toList]

/-! ## Replaced expansions -/

theorem get?_map (f : Expansion → Other) (options : OptionSet Expansion) (kind : OptionKind) :
    (options.map f).get? kind = (options.get? kind).map (SystemOption.map f) := by
  cases kind <;> simp [map, get?, SystemOption.map, Function.comp_def]

theorem toList_map (f : Expansion → Other) (options : OptionSet Expansion) :
    (options.map f).toList = options.toList.map (SystemOption.map f) := by
  rw [toList, toList, List.map_filterMap]
  congr 1
  funext kind
  exact get?_map f options kind

theorem isEmpty_iff : options.isEmpty = true ↔ options = empty := by
  rw [isEmpty, List.isEmpty_iff]
  constructor
  · intro hlist
    rw [← ofList_toList options, hlist]
    rfl
  · rintro rfl
    rfl

end OptionSet

end ODataOptions
