import Mathlib.Logic.Function.Basic
import ODataOptions.Expand.Printer
import ODataOptions.Proofs.SystemOption.Sets

/-!
# The first option of each kind

A set is filled by inserting one option after another, and an option whose kind is taken already is
handed back.  So the set has the first option of each kind that was inserted, whatever came behind it.

To find options by their kinds is to have a map with the kinds as its keys.  A map could have an option
under a foreign key, and a typed look-up would then miss it.  Insertion into a map never does this, and
into a set it is the same: the maps in which each option is found under its own kind are just what sets
are.
-/

namespace ODataOptions

/-! ## Options in a map -/

variable {Expansion : Type}

/-- Options under keys, which are kinds. -/
abbrev KeyedOptions (Expansion : Type) := OptionKind → Option (SystemOption Expansion)

namespace KeyedOptions

variable {stored : KeyedOptions Expansion}

/-- Puts an option under its kind.  If there is an option already, the new one is handed back. -/
def insert (stored : KeyedOptions Expansion) (option : SystemOption Expansion) :
    Except (SystemOption Expansion) (KeyedOptions Expansion) :=
  if (stored option.kind).isSome then .error option
  else .ok (Function.update stored option.kind (some option))

/-- The map after an insertion, which leaves it as it was if the option is handed back. -/
def put (stored : KeyedOptions Expansion) (option : SystemOption Expansion) :
    KeyedOptions Expansion :=
  (insert stored option).toOption.getD stored

/-- The map after the insertion of several options, from an empty one. -/
def ofList (sequence : List (SystemOption Expansion)) : KeyedOptions Expansion :=
  sequence.foldl put fun _ => none

/-- Each option is under its own kind. -/
def Filed (stored : KeyedOptions Expansion) : Prop :=
  ∀ kind option, stored kind = some option → option.kind = kind

/-- An insertion fills only an empty place. -/
theorem put_apply (stored : KeyedOptions Expansion) (option : SystemOption Expansion)
    (kind : OptionKind) :
    put stored option kind = (stored kind).or (if option.kind = kind then some option else none) := by
  rw [put, insert]
  by_cases hkind : option.kind = kind
  · subst hkind
    cases hstored : stored option.kind <;> simp [Except.toOption, hstored]
  · have hupdate : Function.update stored option.kind (some option) kind = stored kind :=
      Function.update_of_ne (Ne.symm hkind) _ _
    rw [if_neg hkind, Option.or_none]
    split
    · rfl
    · exact hupdate

theorem Filed.put (hfiled : stored.Filed) (option : SystemOption Expansion) :
    (KeyedOptions.put stored option).Filed := by
  intro kind found hfound
  rw [put_apply, Option.or_eq_some_iff] at hfound
  rcases hfound with hstored | ⟨-, hnew⟩
  · exact hfiled kind found hstored
  · split at hnew
    · next hkind =>
      cases hnew
      exact hkind
    · cases hnew

/-- A run of insertions keeps each option under its own kind. -/
theorem filed_ofList (sequence : List (SystemOption Expansion)) : (ofList sequence).Filed := by
  have hrun : ∀ stored : KeyedOptions Expansion, stored.Filed → (sequence.foldl put stored).Filed := by
    induction sequence with
    | nil => exact fun _ hfiled => hfiled
    | cons option sequence ih => exact fun stored hfiled => ih _ (hfiled.put option)
  exact hrun _ fun _ _ hget => by cases hget

end KeyedOptions

namespace OptionSet

variable {sequence : List (SystemOption Expansion)}

/-- To insert an option into a set and to insert it into the map of the set is the same. -/
theorem map_get?_insert (options : OptionSet Expansion) (option : SystemOption Expansion) :
    (options.insert option).map get? = KeyedOptions.insert options.get? option := by
  rw [insert, KeyedOptions.insert, contains]
  split
  · rfl
  · apply congrArg Except.ok
    funext kind
    rw [get?_set, Function.update_apply]
    simp only [eq_comm]

/-- A run of insertions into a set is one into its map. -/
theorem get?_ofList_eq_keyed (sequence : List (SystemOption Expansion)) :
    (ofList sequence).get? = KeyedOptions.ofList sequence := by
  have hrun : ∀ options : OptionSet Expansion,
      (sequence.foldl (fun set option => (set.insert option).toOption.getD set) options).get? =
        sequence.foldl KeyedOptions.put options.get? := by
    induction sequence with
    | nil => exact fun _ => rfl
    | cons option sequence ih =>
      intro options
      have hstep : ((options.insert option).toOption.getD options).get? =
          KeyedOptions.put options.get? option := by
        rw [KeyedOptions.put, ← map_get?_insert]
        cases options.insert option <;> rfl
      rw [List.foldl_cons, List.foldl_cons, ih, hstep]
  have hempty : (empty : OptionSet Expansion).get? = fun _ => none := by
    funext kind
    cases kind <;> rfl
  rw [ofList, hrun, hempty, KeyedOptions.ofList]

/-- Sets are the maps that have each option under its own kind. -/
theorem exists_get?_eq_iff {stored : KeyedOptions Expansion} :
    (∃ options : OptionSet Expansion, options.get? = stored) ↔ stored.Filed := by
  constructor
  · rintro ⟨options, rfl⟩
    exact fun _ _ => kind_of_get?
  · intro hfiled
    have hkinds : ((OptionKind.all.filterMap stored).map SystemOption.kind).Nodup :=
      List.pairwise_map.mpr ((pairwise_kind_filterMap hfiled).imp OptionKind.ne_of_lt)
    refine ⟨ofList (OptionKind.all.filterMap stored), funext fun kind => Option.ext fun option => ?_⟩
    rw [get?_ofList_eq_some_iff hkinds, List.mem_filterMap]
    constructor
    · rintro ⟨⟨kind, -, hget⟩, rfl⟩
      rwa [hfiled _ _ hget]
    · exact fun hget => ⟨⟨kind, kind.mem_all, hget⟩, hfiled kind option hget⟩

/-! ## Runs of insertions -/

theorem ofList_append (sequence : List (SystemOption Expansion)) (option : SystemOption Expansion) :
    ofList (sequence ++ [option]) = ((ofList sequence).insert option).toOption.getD (ofList sequence) := by
  rw [ofList, List.foldl_append]
  rfl

theorem contains_ofList (sequence : List (SystemOption Expansion)) (kind : OptionKind) :
    (ofList sequence).contains kind = true ↔ ∃ option ∈ sequence, option.kind = kind := by
  rw [contains, get?_ofList, List.find?_isSome]
  simp

/-- The next insertion after a run: the option is handed back as it is if the run had one of its kind,
and otherwise it is added. -/
theorem insert_ofList (sequence : List (SystemOption Expansion)) (option : SystemOption Expansion) :
    (ofList sequence).insert option =
      if ∃ earlier ∈ sequence, earlier.kind = option.kind then .error option
      else .ok (ofList (sequence ++ [option])) := by
  rw [ofList_append, insert]
  by_cases htaken : ∃ earlier ∈ sequence, earlier.kind = option.kind
  · rw [if_pos ((contains_ofList sequence _).mpr htaken), if_pos htaken]
  · rw [if_neg fun h => htaken ((contains_ofList sequence _).mp h), if_neg htaken]
    rfl

/-- A later option of a kind that is taken leaves the set as it was. -/
theorem ofList_append_of_taken {option : SystemOption Expansion}
    (htaken : ∃ earlier ∈ sequence, earlier.kind = option.kind) :
    ofList (sequence ++ [option]) = ofList sequence := by
  rw [ofList_append, insert_ofList, if_pos htaken]
  rfl

theorem mem_toList_iff_exists {options : OptionSet Expansion} {option : SystemOption Expansion} :
    option ∈ options.toList ↔ ∃ kind, options.get? kind = some option := by
  rw [toList, List.mem_filterMap]
  constructor
  · rintro ⟨kind, -, hget⟩
    exact ⟨kind, hget⟩
  · rintro ⟨kind, hget⟩
    exact ⟨kind, kind.mem_all, hget⟩

/-- A set depends on the first options of each kind only. -/
theorem ofList_eq_iff {sequence others : List (SystemOption Expansion)} :
    ofList sequence = ofList others ↔
      ∀ kind, (sequence.find? fun option => option.kind = kind) =
        others.find? fun option => option.kind = kind := by
  constructor
  · intro hsame kind
    rw [← get?_ofList, hsame, get?_ofList]
  · intro hfirst
    apply ext_get?
    intro kind
    rw [get?_ofList, get?_ofList, hfirst]

/-- After any run of insertions, the map of the set is that of the run and has each option under its own
kind; what the set has of a kind is the first option of that kind in the run; a further option is handed
back as it is if the run had one of its kind, and then it changes nothing; the list of the set has just the
options that are found in it, in the order of their kinds; and the set and its text depend on the first
options of each kind only. -/
theorem ofList_keeps_first (sequence : List (SystemOption Expand)) :
    ((ofList sequence).get? = KeyedOptions.ofList sequence ∧
      (KeyedOptions.ofList sequence).Filed) ∧
    (∀ kind, (ofList sequence).get? kind = sequence.find? fun option => option.kind = kind) ∧
    (∀ option, (ofList sequence).insert option =
        if ∃ earlier ∈ sequence, earlier.kind = option.kind then .error option
        else .ok (ofList (sequence ++ [option]))) ∧
    (∀ option rejected, (ofList sequence).insert option = .error rejected →
      rejected = option ∧ ofList (sequence ++ [option]) = ofList sequence) ∧
    ((∀ option, option ∈ (ofList sequence).toList ↔
        ∃ kind, (ofList sequence).get? kind = some option) ∧
      (ofList sequence).toList.Pairwise fun first second => first.kind < second.kind) ∧
    (∀ others : List (SystemOption Expand),
      (∀ kind, (sequence.find? fun option => option.kind = kind) =
          others.find? fun option => option.kind = kind) →
        ofList sequence = ofList others ∧
          (ExpandItem.optionTexts (ofList sequence)).print =
            (ExpandItem.optionTexts (ofList others)).print) := by
  refine ⟨⟨get?_ofList_eq_keyed sequence, KeyedOptions.filed_ofList sequence⟩, get?_ofList sequence,
    insert_ofList sequence, ?_, ⟨fun _ => mem_toList_iff_exists, pairwise_kind_lt _⟩, ?_⟩
  · intro option rejected hinsert
    rw [insert_ofList] at hinsert
    split at hinsert
    · next htaken =>
      cases hinsert
      exact ⟨rfl, ofList_append_of_taken htaken⟩
    · cases hinsert
  · intro others hfirst
    have hsame := ofList_eq_iff.mpr hfirst
    exact ⟨hsame, by rw [hsame]⟩

/-- The first of two page sizes is kept, whatever the order of the other options and whatever is rejected
behind it. -/
theorem ofList_keeps_first_page :
    ∃ sequence others : List (SystemOption Expand),
      sequence = [.top 3, .count false, .top 5] ∧ others = [.count false, .count true, .top 3] ∧
      (ofList sequence).insert (.top 7) = .error (.top 7) ∧
      ofList (sequence ++ [.top 7]) = ofList sequence ∧
      (∀ kind, (sequence.find? fun option => option.kind = kind) =
        others.find? fun option => option.kind = kind) ∧
      ofList sequence = ofList others ∧
      (ExpandItem.optionTexts (ofList others)).print = "$count=false;$top=3" := by
  let sequence : List (SystemOption Expand) := [.top 3, .count false, .top 5]
  let others : List (SystemOption Expand) := [.count false, .count true, .top 3]
  have hfirst : ∀ kind, (sequence.find? fun option => option.kind = kind) =
      others.find? fun option => option.kind = kind := by
    intro kind
    cases kind <;> rfl
  have hinsert : (ofList sequence).insert (.top 7) = .error (.top 7) := rfl
  obtain ⟨-, -, -, hrejected, -, hsame⟩ := ofList_keeps_first sequence
  exact ⟨sequence, others, rfl, rfl, hinsert, (hrejected _ _ hinsert).2, hfirst, (hsame others hfirst).1,
    by decide +kernel⟩

end OptionSet

end ODataOptions
