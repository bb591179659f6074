import ODataOptions.Proofs.Query.Order
import ODataOptions.Proofs.Text.Encoding

/-!
# Encoded queries

A list of names and values is written as a query part by part, each name and each value percent-encoded in
one of many ways.  Whichever way is taken, the query is split and decoded into the same list again: the
custom options are kept in their order, and an alias stands for the last value that is given for it.
-/

namespace ODataOptions

namespace QueryPart

/-- A way to write the part.  Any character may be encoded.  A percent sign and an ampersand always are,
and so is an equals sign in the name. -/
def EncodedAs (part : QueryPart) (text : String) : Prop :=
  ∃ name value : List Char, text.toList = name ++ '=' :: value ∧
    Text.Percent.Encodes (fun c => c ≠ '&' ∧ c ≠ '=') part.name.toList name ∧
    Text.Percent.Encodes (· ≠ '&') part.value.toList value

variable {part : QueryPart} {text : String}

/-- An encoded part is read as the part. -/
theorem EncodedAs.ofWritten_eq (hencoded : part.EncodedAs text) : ofWritten text = part := by
  obtain ⟨name, value, htext, hname, hvalue⟩ := hencoded
  have hequals : '=' ∉ name := hname.not_mem (by simp) (by decide) (by decide)
  have hpass : ∀ c ∈ name, decide (c ≠ '=') = true := by
    intro c hmem
    refine decide_eq_true ?_
    rintro rfl
    exact hequals hmem
  have htake : text.toList.takeWhile (· ≠ '=') = name := by
    rw [htext, List.takeWhile_append_of_pos hpass]
    simp
  have hdrop : (text.toList.dropWhile (· ≠ '=')).drop 1 = value := by
    rw [htext, List.dropWhile_append_of_pos hpass]
    simp
  rw [ofWritten, ofText, htake, hdrop, hname.decode_eq, hvalue.decode_eq, String.ofList_toList,
    String.ofList_toList]

/-- Nothing in an encoded part ends it early. -/
theorem EncodedAs.isWritten (hencoded : part.EncodedAs text) : IsWritten text := by
  obtain ⟨name, value, htext, hname, hvalue⟩ := hencoded
  have hampersand : '&' ∉ name ∧ '&' ∉ value :=
    ⟨hname.not_mem (by simp) (by decide) (by decide), hvalue.not_mem (by simp) (by decide) (by decide)⟩
  constructor
  · rintro rfl
    simp at htext
  · rw [htext, List.mem_append, List.mem_cons, not_or, not_or]
    exact ⟨hampersand.1, by decide, hampersand.2⟩

/-- Encoded parts are written as parts of a query and stand for what was encoded. -/
theorem map_ofWritten_of_encoded {parts : List QueryPart} {written : List String}
    (hencoded : List.Forall₂ EncodedAs parts written) :
    (∀ text ∈ written, IsWritten text) ∧ written.map ofWritten = parts := by
  induction hencoded with
  | nil => exact ⟨by simp, rfl⟩
  | cons hpart _ ih =>
    refine ⟨List.forall_mem_cons.mpr ⟨hpart.isWritten, ih.1⟩, ?_⟩
    rw [List.map_cons, hpart.ofWritten_eq, ih.2]

/-! ## Names of parts -/

/-- An alias is defined by a part that has its name with the sign before it. -/
theorem parameterAlias?_eq_some_iff {name value : String} :
    part.parameterAlias? = some ⟨name, value⟩ ↔ part.name = "@" ++ name ∧ part.value = value := by
  rw [← String.toList_inj, String.toList_append, parameterAlias?]
  split
  · next rest hname =>
    rw [hname, Option.some.injEq, ParameterAlias.mk.injEq]
    exact and_congr_left' ⟨by rintro rfl; simp, fun h => by
      cases h
      exact String.ofList_toList⟩
  · next hname =>
    refine ⟨fun h => (by cases h), fun h => ?_⟩
    exact absurd h.1 (hname _)

theorem defines_iff {name : String} : part.defines name = true ↔ part.name = "@" ++ name := by
  rw [defines, Option.any_eq_true]
  constructor
  · rintro ⟨⟨found, value⟩, hfound, hname⟩
    obtain rfl := of_decide_eq_true hname
    exact (parameterAlias?_eq_some_iff.mp hfound).1
  · intro hname
    exact ⟨⟨name, part.value⟩, parameterAlias?_eq_some_iff.mpr ⟨hname, rfl⟩, decide_eq_true rfl⟩

/-- An alias has the last value that is given under its name. -/
theorem find?_aliases (parts : List QueryPart) (name : String) :
    ((NameTable.ofList (parts.filterMap parameterAlias?)).find? name).map ParameterAlias.value =
      ((parts.filter fun part => part.name = "@" ++ name).getLast?).map QueryPart.value := by
  have hfilter : parts.filter (defines name) = parts.filter fun part => part.name = "@" ++ name := by
    apply List.filter_congr
    intro part _
    rw [Bool.eq_iff_iff, defines_iff, decide_eq_true_iff]
  have hdefinitions : (parts.filter (defines name)).filterMap parameterAlias? =
      (parts.filter (defines name)).map fun part => ⟨name, part.value⟩ := by
    rw [← List.filterMap_eq_map]
    apply List.filterMap_congr
    intro part hmem
    have hname := defines_iff.mp (List.mem_filter.mp hmem).2
    exact parameterAlias?_eq_some_iff.mpr ⟨hname, rfl⟩
  rw [NameTable.find?_ofList, filter_filterMap_parameterAlias?, hdefinitions, hfilter,
    List.getLast?_map, Option.map_map]
  rfl

/-- A part is custom if its name begins with neither of the two signs. -/
theorem isCustom_iff_head? :
    part.isCustom = true ↔
      part.name.toList.head? ≠ some '@' ∧ part.name.toList.head? ≠ some '$' := by
  have halias : part.parameterAlias? = none ↔ part.name.toList.head? ≠ some '@' := by
    rw [parameterAlias?]
    cases part.name.toList with
    | nil => simp
    | cons c rest => by_cases hc : c = '@' <;> simp [hc]
  rw [isCustom_iff, halias, isSystem, decide_eq_false_iff_not]

end QueryPart

/-! ## Queries -/

/-- A query of encoded names and values is read, whichever way these are encoded.  The aliases are those
names that begin with `@`, each with the last value given for it, and the other names and values are kept
in their order. -/
theorem Query.read_encoded (schema : Schema) (limits : Limits) (owner : StructuredType)
    (pairs : List (String × String)) (written : List String)
    (hnames : ∀ pair ∈ pairs, pair.1.toList.head? ≠ some '$')
    (hencoded : List.Forall₂ (fun pair text => (QueryPart.mk pair.1 pair.2).EncodedAs text) pairs written)
    (hfirst : ("&".intercalate written).toList.head? ≠ some '?')
    (hlength : ("&".intercalate written).utf8ByteSize ≤ limits.queryLength) :
    ∃ query, read schema limits owner ("&".intercalate written) = .ok query ∧
      query.system = ∅ ∧
      query.custom = pairs.filter (fun pair => pair.1.toList.head? ≠ some '@') ∧
      ∀ name, (query.aliases.find? name).map ParameterAlias.value =
        ((pairs.filter fun pair => pair.1 = "@" ++ name).getLast?).map Prod.snd := by
  have hparts : QueryPart.listOf ("&".intercalate written) =
      pairs.map fun pair => ⟨pair.1, pair.2⟩ := by
    obtain ⟨hwritten, hmap⟩ :=
      QueryPart.map_ofWritten_of_encoded (List.forall₂_map_left_iff.mpr hencoded)
    rw [QueryPart.listOf_written_of_head? hwritten hfirst, hmap]
  have hsystem : (QueryPart.listOf ("&".intercalate written)).filter QueryPart.isSystem = [] := by
    rw [hparts, List.filter_eq_nil_iff]
    refine List.forall_mem_map.mpr ?_
    intro pair hmem
    simpa [QueryPart.isSystem] using hnames pair hmem
  refine ⟨{ aliases := NameTable.ofList
              ((QueryPart.listOf ("&".intercalate written)).filterMap QueryPart.parameterAlias?)
            custom := ((QueryPart.listOf ("&".intercalate written)).filter QueryPart.isCustom).map
              fun part => (part.name, part.value) },
    read_eq_ok_iff.mpr ⟨hlength, rfl, ?_, rfl⟩, rfl, ?_, fun name => ?_⟩
  · rw [hsystem]
    rfl
  · rw [hparts, List.filter_map, List.map_map]
    refine (List.map_id _).trans (List.filter_congr fun pair hmem => ?_)
    rw [Function.comp_apply, Bool.eq_iff_iff, QueryPart.isCustom_iff_head?, decide_eq_true_iff]
    exact and_iff_left (hnames pair hmem)
  · rw [QueryPart.find?_aliases, hparts, List.filter_map, List.getLast?_map, Option.map_map]
    rfl

/-- A name and an alias are given twice each, with digits of both cases, and one name is empty. -/
theorem Query.read_encoded_shop :
    ∃ query, read .shop {} .shopCustomer ("&".intercalate
        ["a%3Db=x=%26", "@p=1", "a%3db=%c3%A9", "%40p=2", "="]) = .ok query ∧
      query.system = ∅ ∧ query.custom = [("a=b", "x=&"), ("a=b", "é"), ("", "")] ∧
      (query.aliases.find? "p").map ParameterAlias.value = some "2" := by
  have hplain : ∀ name : String, Text.Percent.Encodes (fun c => c ≠ '&' ∧ c ≠ '=') name.toList
      (Text.Percent.encode (fun c => c ≠ '&' ∧ c ≠ '=') name.toList) :=
    fun name => Text.Percent.encodes_encode _ name.toList
  have hvalue : ∀ value : String, Text.Percent.Encodes (· ≠ '&') value.toList
      (Text.Percent.encode (· ≠ '&') value.toList) :=
    fun value => Text.Percent.encodes_encode _ value.toList
  have hequals : Text.Percent.Escapes (String.utf8EncodeChar '=') "%3d".toList := .cons rfl .nil
  have haccent : Text.Percent.Escapes (String.utf8EncodeChar 'é') "%c3%A9".toList :=
    .cons rfl (.cons rfl .nil)
  have hsign : Text.Percent.Escapes (String.utf8EncodeChar '@') "%40".toList := .cons rfl .nil
  obtain ⟨query, hread, hsystem, hcustom, haliases⟩ := read_encoded .shop {} .shopCustomer
    [("a=b", "x=&"), ("@p", "1"), ("a=b", "é"), ("@p", "2"), ("", "")]
    ["a%3Db=x=%26", "@p=1", "a%3db=%c3%A9", "%40p=2", "="] (by decide)
    (.cons ⟨"a%3Db".toList, "x=%26".toList, rfl, hplain "a=b", hvalue "x=&"⟩
      (.cons ⟨"@p".toList, ['1'], rfl, hplain "@p", hvalue "1"⟩
        (.cons ⟨"a%3db".toList, "%c3%A9".toList, rfl,
          .bare (by decide) (by decide) (.escaped hequals (hplain "b")), .escaped haccent .nil⟩
          (.cons ⟨"%40p".toList, ['2'], rfl, .escaped hsign (hplain "p"), hvalue "2"⟩
            (.cons ⟨[], [], rfl, .nil, .nil⟩ .nil)))))
    (by decide) (by decide)
  exact ⟨query, hread, hsystem, hcustom, haliases "p"⟩

end ODataOptions
