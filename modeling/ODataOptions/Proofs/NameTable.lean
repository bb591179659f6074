import Mathlib.Data.List.Sort
import ODataOptions.NameTable

/-!
# Tables by what they find

A table is determined by what it finds under each name.  The table of a list finds the last entry of a
name, so the order of entries with different names does not matter.
-/

namespace ODataOptions.NameTable

variable {α : Type} [Named α]

theorem find?_of_mem {entry : α} {entries : List α}
    (hordered : entries.Pairwise (nameOf · < nameOf ·)) (hmem : entry ∈ entries) :
    entries.find? (nameOf · = nameOf entry) = some entry := by
  induction entries with
  | nil => cases hmem
  | cons other others ih =>
    obtain ⟨hfirst, hrest⟩ := List.pairwise_cons.mp hordered
    cases hmem with
    | head => simp
    | tail _ hmem =>
      have hne : nameOf other ≠ nameOf entry := fun h => String.lt_irrefl _ (h ▸ hfirst entry hmem)
      rw [List.find?_cons_of_neg (by simpa using hne)]
      exact ih hrest hmem

theorem mem_entries_iff {table : NameTable α} {entry : α} :
    entry ∈ table.entries ↔ table.find? (nameOf entry) = some entry :=
  ⟨find?_of_mem table.ordered, List.mem_of_find?_eq_some⟩

/-- A table is known by what is found in it. -/
theorem ext_find? {first second : NameTable α}
    (hfind : ∀ name, first.find? name = second.find? name) : first = second := by
  have hirrefl : Std.Irrefl fun entry other : α => nameOf entry < nameOf other :=
    ⟨fun _ => String.lt_irrefl _⟩
  have hantisymm : Std.Antisymm fun entry other : α => nameOf entry < nameOf other :=
    ⟨fun _ _ hlt hgt => absurd hgt (String.lt_asymm hlt)⟩
  apply ext_entries
  apply first.ordered.eq_of_mem_iff second.ordered
  intro entry
  rw [mem_entries_iff, mem_entries_iff, hfind]

/-- Of several entries of one name, the last one is found. -/
theorem find?_foldl_insert (entries : List α) (table : NameTable α) (name : String) :
    (entries.foldl insert table).find? name =
      (entries.filter (nameOf · = name)).getLast?.or (table.find? name) := by
  induction entries generalizing table with
  | nil => rfl
  | cons entry entries ih =>
    rw [List.foldl_cons, ih, find?_insert]
    by_cases hname : nameOf entry = name
    · rw [if_pos hname, List.filter_cons_of_pos (by simpa using hname), List.getLast?_cons]
      cases (entries.filter (nameOf · = name)).getLast? <;> rfl
    · rw [if_neg hname, List.filter_cons_of_neg (by simpa using hname)]

/-- Under a name the table of a list has the last entry of that name. -/
theorem find?_ofList (entries : List α) (name : String) :
    (ofList entries).find? name = (entries.filter (nameOf · = name)).getLast? := by
  rw [ofList, find?_foldl_insert, find?_empty, Option.or_none]

/-- Lists with the same entries of each name, in the same order, have the same table. -/
theorem ofList_congr {entries others : List α}
    (hsame : ∀ name, entries.filter (nameOf · = name) = others.filter (nameOf · = name)) :
    ofList entries = ofList others := by
  apply ext_find?
  intro name
  rw [find?_ofList, find?_ofList, hsame]

end ODataOptions.NameTable
