/-!
# Tables ordered by name

The members of a structured type and the parameter aliases of a request are looked up by name and
listed in name order.  A table keeps its entries in strictly increasing order, so two tables with
the same entries are equal however they came about.
-/

namespace ODataOptions

/-- Things that carry the name they are looked up by. -/
class Named (α : Type) where
  nameOf : α → String

export Named (nameOf)

/-- A list with at most one entry a name, in increasing order of the names.  Names are ordered by
their characters, which is also the order of their UTF-8 bytes. -/
structure NameTable (α : Type) [Named α] where
  entries : List α
  ordered : entries.Pairwise (nameOf · < nameOf ·)
deriving DecidableEq

namespace NameTable

variable {α : Type} [Named α]

def empty : NameTable α := ⟨[], .nil⟩

instance : EmptyCollection (NameTable α) := ⟨empty⟩

instance : Inhabited (NameTable α) := ⟨empty⟩

def insertEntry (entry : α) : List α → List α
  | [] => [entry]
  | other :: others =>
    if nameOf entry < nameOf other then entry :: other :: others
    else if nameOf entry = nameOf other then entry :: others
    else other :: insertEntry entry others

theorem mem_of_mem_insertEntry {entry x : α} {entries : List α}
    (hmem : x ∈ insertEntry entry entries) : x = entry ∨ x ∈ entries := by
  induction entries with
  | nil => simpa [insertEntry] using hmem
  | cons other others ih =>
    simp only [insertEntry] at hmem
    split at hmem
    · simpa using hmem
    · split at hmem
      · rcases List.mem_cons.mp hmem with rfl | h
        · exact .inl rfl
        · exact .inr (List.mem_cons_of_mem _ h)
      · rcases List.mem_cons.mp hmem with rfl | h
        · exact .inr List.mem_cons_self
        · exact (ih h).imp_right (List.mem_cons_of_mem _)

theorem ordered_insertEntry (entry : α) {entries : List α}
    (hordered : entries.Pairwise (nameOf · < nameOf ·)) :
    (insertEntry entry entries).Pairwise (nameOf · < nameOf ·) := by
  induction entries with
  | nil => simp [insertEntry]
  | cons other others ih =>
    obtain ⟨hfirst, hrest⟩ := List.pairwise_cons.mp hordered
    simp only [insertEntry]
    split
    · next hlt =>
      refine List.pairwise_cons.mpr ⟨fun x hx => ?_, hordered⟩
      rcases List.mem_cons.mp hx with rfl | hx
      · exact hlt
      · exact String.lt_trans hlt (hfirst x hx)
    · next hlt =>
      split
      · next heq => exact List.pairwise_cons.mpr ⟨fun x hx => heq ▸ hfirst x hx, hrest⟩
      · next hne =>
        refine List.pairwise_cons.mpr ⟨fun x hx => ?_, ih hrest⟩
        rcases mem_of_mem_insertEntry hx with rfl | hx
        · exact Classical.byContradiction fun hge =>
            hne (String.le_antisymm (String.not_lt.mp hge) (String.not_lt.mp hlt))
        · exact hfirst x hx

/-- Puts an entry into the table, instead of the entry of that name if any. -/
def insert (table : NameTable α) (entry : α) : NameTable α :=
  ⟨insertEntry entry table.entries, ordered_insertEntry entry table.ordered⟩

/-- The table of a list of entries, where a later entry replaces an earlier one of its name. -/
def ofList (entries : List α) : NameTable α := entries.foldl insert empty

def find? (table : NameTable α) (name : String) : Option α :=
  table.entries.find? (nameOf · = name)

@[simp]
theorem find?_empty (name : String) : (empty : NameTable α).find? name = none := rfl

theorem find?_insertEntry (entry : α) (name : String) (entries : List α) :
    (insertEntry entry entries).find? (nameOf · = name) =
      if nameOf entry = name then some entry else entries.find? (nameOf · = name) := by
  induction entries with
  | nil => simp [insertEntry, List.find?_cons]; split <;> simp_all
  | cons other others ih =>
    simp only [insertEntry]
    split
    · by_cases h : nameOf entry = name <;> simp [List.find?_cons, h]
    · split
      · next heq => by_cases h : nameOf entry = name <;> simp_all
      · next hne =>
        by_cases h : nameOf entry = name
        · have : ¬ nameOf other = name := fun heq => hne (h.trans heq.symm)
          simp [h, this, ih]
        · simp only [List.find?_cons, ih, h, if_false]

/-- An inserted entry is found under its name, and no other name is affected. -/
@[simp]
theorem find?_insert (table : NameTable α) (entry : α) (name : String) :
    (table.insert entry).find? name =
      if nameOf entry = name then some entry else table.find? name :=
  find?_insertEntry entry name table.entries

/-- An entry behind all others is put at the end. -/
theorem insertEntry_append {entry : α} {entries : List α}
    (hlast : ∀ other ∈ entries, nameOf other < nameOf entry) :
    insertEntry entry entries = entries ++ [entry] := by
  induction entries with
  | nil => rfl
  | cons other others ih =>
    obtain ⟨hother, hothers⟩ := List.forall_mem_cons.mp hlast
    have hne : nameOf entry ≠ nameOf other := fun h => String.lt_irrefl _ (h ▸ hother)
    rw [insertEntry, if_neg (String.lt_asymm hother), if_neg hne, ih hothers, List.cons_append]

theorem ext_entries {first second : NameTable α} (hentries : first.entries = second.entries) :
    first = second := by
  cases first
  cases second
  cases hentries
  rfl

theorem entries_foldl_insert {start : NameTable α} {entries : List α}
    (hordered : (start.entries ++ entries).Pairwise (nameOf · < nameOf ·)) :
    (entries.foldl insert start).entries = start.entries ++ entries := by
  induction entries generalizing start with
  | nil => exact (List.append_nil _).symm
  | cons entry entries ih =>
    obtain ⟨-, -, hbetween⟩ := List.pairwise_append.mp hordered
    have hinsert : (start.insert entry).entries = start.entries ++ [entry] :=
      insertEntry_append fun other hmem => hbetween other hmem entry List.mem_cons_self
    rw [List.foldl_cons, ih, hinsert, List.append_assoc, List.singleton_append]
    rwa [hinsert, List.append_assoc, List.singleton_append]

/-- The table of the entries of a table is the table itself. -/
theorem ofList_entries (table : NameTable α) : ofList table.entries = table :=
  ext_entries (entries_foldl_insert table.ordered)

end NameTable

end ODataOptions
