import ODataOptions.Proofs.Text.Percent
import ODataOptions.Query.Parser

/-!
# Parts of printed queries

A query is printed in parts, whose names and values are not encoded.  Where nothing in them is taken for
anything else, the text is split into the same parts again.
-/

namespace ODataOptions

namespace Text

/-- The pieces of a text are those of the library. -/
theorem split_eq_splitOn (separator : Char) (text : List Char) :
    split separator text = text.splitOn separator := by
  induction text with
  | nil => rfl
  | cons c text ih =>
    rw [split, ih, List.splitOn_cons_eq_if_modifyHead]
    by_cases hseparator : c = separator
    · rw [if_pos hseparator, if_pos (by simpa using hseparator)]
    · rw [if_neg hseparator, if_neg (by simpa using hseparator)]
      cases hpieces : text.splitOn separator with
      | nil => exact absurd hpieces (List.splitOn_ne_nil _ _)
      | cons => rfl

end Text

namespace QueryPart

def text (part : QueryPart) : String := part.name ++ "=" ++ part.value

/-- Nothing in the part is taken for anything else: no percent sign for an encoded byte, no ampersand
for the end of the part, and no equals sign in the name for its end. -/
def Plain (part : QueryPart) : Prop :=
  (Text.Percent.isPlain part.name.toList = true ∧ Text.Percent.isPlain part.value.toList = true) ∧
    ('&' ∉ part.name.toList ∧ '&' ∉ part.value.toList) ∧ '=' ∉ part.name.toList

instance (part : QueryPart) : Decidable part.Plain :=
  inferInstanceAs (Decidable ((_ ∧ _) ∧ (_ ∧ _) ∧ _))

theorem toList_text (part : QueryPart) :
    part.text.toList = part.name.toList ++ '=' :: part.value.toList := by
  simp [text]

variable {part : QueryPart} {parts : List QueryPart}

theorem Plain.ofText_text (hplain : part.Plain) : ofText part.text.toList = part := by
  obtain ⟨⟨hname, hvalue⟩, -, hequals⟩ := hplain
  have hpass : ∀ c ∈ part.name.toList, decide (c ≠ '=') = true := by
    intro c hmem
    refine decide_eq_true ?_
    rintro rfl
    exact hequals hmem
  have htake : part.text.toList.takeWhile (· ≠ '=') = part.name.toList := by
    rw [toList_text, List.takeWhile_append_of_pos hpass]
    simp
  have hdrop : (part.text.toList.dropWhile (· ≠ '=')).drop 1 = part.value.toList := by
    rw [toList_text, List.dropWhile_append_of_pos hpass]
    simp
  rw [ofText, htake, hdrop, Text.Percent.decode_of_isPlain hname,
    Text.Percent.decode_of_isPlain hvalue, String.ofList_toList, String.ofList_toList]

/-- Plain parts are told apart again. -/
theorem split_texts (hplain : ∀ part ∈ parts, part.Plain) (hne : parts ≠ []) :
    Text.split '&' ("&".intercalate (parts.map text)).toList =
      parts.map fun part => part.text.toList := by
  rw [String.toList_intercalate, List.map_map, Text.split_eq_splitOn]
  refine List.splitOn_intercalate '&' (List.forall_mem_map.mpr fun part hmem => ?_) (by simpa using hne)
  obtain ⟨-, ⟨hname, hvalue⟩, -⟩ := hplain part hmem
  change '&' ∉ part.text.toList
  rw [toList_text, List.mem_append, List.mem_cons, not_or, not_or]
  exact ⟨hname, by decide, hvalue⟩

/-- The text of plain parts is split into the same parts again, unless it begins with a question
mark. -/
theorem listOf_texts (hplain : ∀ part ∈ parts, part.Plain)
    (hfirst : ("&".intercalate (parts.map text)).toList.head? ≠ some '?') :
    listOf ("&".intercalate (parts.map text)) = parts := by
  have hlist : listOf ("&".intercalate (parts.map text)) =
      ((Text.split '&' ("&".intercalate (parts.map text)).toList).filter (· ≠ [])).map ofText := by
    rw [listOf]
    split
    · next hlist => exact absurd (by rw [hlist]; rfl) hfirst
    · rfl
  rw [hlist]
  cases parts with
  | nil => rfl
  | cons part parts =>
    rw [split_texts hplain (List.cons_ne_nil part parts)]
    have hall : ∀ written ∈ (part :: parts).map fun part => part.text.toList,
        decide (written ≠ []) = true := by
      refine List.forall_mem_map.mpr ?_
      intro part _
      refine decide_eq_true ?_
      rw [toList_text]
      exact List.append_ne_nil_of_right_ne_nil _ (List.cons_ne_nil _ _)
    rw [List.filter_eq_self.mpr hall, List.map_map]
    exact (List.map_congr_left fun part hmem => (hplain part hmem).ofText_text).trans
      (List.map_id _)

/-! ## What a part is -/

/-- A part does not define an alias if it is named like a system query option. -/
theorem parameterAlias?_of_isSystem (hsystem : part.isSystem = true) :
    part.parameterAlias? = none := by
  rw [isSystem, decide_eq_true_eq] at hsystem
  rw [parameterAlias?]
  split
  · next hname =>
    rw [hname] at hsystem
    cases hsystem
  · rfl

theorem isCustom_iff : part.isCustom = true ↔ part.parameterAlias? = none ∧ part.isSystem = false := by
  rw [isCustom, Bool.and_eq_true, Option.isNone_iff_eq_none, Bool.not_eq_true']

end QueryPart

end ODataOptions
