import ODataOptions.Expand.Read
import ODataOptions.Proofs.Parser.Whole
import ODataOptions.Proofs.Query.RoundTrip
import ODataOptions.Proofs.Text.Encoding

/-!
# Queries that consist of an expansion

The value of `$expand` can be read by itself or as the only part of a query, where it is percent-encoded.
Both ways lead to the same expansion or to the same fault.
-/

namespace ODataOptions

open ODataOptions.Parser

/-! ## Queries of one option -/

section

variable {schema : Schema} {limits : Limits} {owner : StructuredType} {kind : OptionKind}
  {value written : String}

theorem QueryPart.ofText_keyword (kind : OptionKind) (written : List Char) :
    ofText ((kind.keyword ++ "=").toList ++ written) = ⟨kind.keyword, Text.Percent.decode written⟩ := by
  cases kind <;> rfl

theorem QueryPart.isSystem_keyword (kind : OptionKind) (value : String) :
    (⟨kind.keyword, value⟩ : QueryPart).isSystem = true := by
  have hkeyword : kind.keyword.toList.head? = some '$' := by cases kind <;> decide
  exact decide_eq_true hkeyword

/-- An encoded option is the only part of the query. -/
theorem QueryPart.listOf_option
    (hencodes : Text.Percent.Encodes (· ≠ '&') value.toList written.toList) :
    listOf (kind.keyword ++ "=" ++ written) = [⟨kind.keyword, value⟩] := by
  have hkeyword : '&' ∉ (kind.keyword ++ "=").toList ∧
      ∃ text, (kind.keyword ++ "=").toList = '$' :: text := by
    cases kind <;> exact ⟨by decide, _, rfl⟩
  obtain ⟨hampersand, text, htext⟩ := hkeyword
  have hwritten : '&' ∉ written.toList := hencodes.not_mem (fun hne => hne rfl) (by decide) (by decide)
  have hlist : listOf (kind.keyword ++ "=" ++ written) =
      ((Text.split '&' ((kind.keyword ++ "=").toList ++ written.toList)).filter (· ≠ [])).map
        ofText := by
    rw [listOf, String.toList_append, htext]
    rfl
  have hsplit : List.splitOn '&' ((kind.keyword ++ "=").toList ++ written.toList) =
      [(kind.keyword ++ "=").toList ++ written.toList] := by
    have hwhole : '&' ∉ (kind.keyword ++ "=").toList ++ written.toList := by
      rw [List.mem_append, not_or]
      exact ⟨hampersand, hwritten⟩
    have hsingle := List.splitOn_intercalate '&' (List.forall_mem_singleton.mpr hwhole)
      (List.cons_ne_nil _ _)
    rwa [List.intercalate_singleton] at hsingle
  have hnonempty : ∀ text ∈ [(kind.keyword ++ "=").toList ++ written.toList],
      decide (text ≠ []) = true := by
    rw [htext]
    exact List.forall_mem_singleton.mpr rfl
  rw [hlist, Text.split_eq_splitOn, hsplit, List.filter_eq_self.mpr hnonempty, List.map_singleton,
    ofText_keyword, hencodes.decode_eq, String.ofList_toList]

/-- The first option of a query always finds its place. -/
theorem Query.addOption_empty {scope : Scope} :
    addOption scope owner ∅ ⟨kind.keyword, value⟩ =
      (SystemOption.read scope owner kind value).map OptionSet.empty.set := by
  have hinsert : ∀ option : SystemOption Expand,
      (∅ : OptionSet Expand).insert option = .ok (OptionSet.empty.set option) := by
    intro option
    cases option <;> rfl
  rw [addOption]
  dsimp only
  rw [OptionKind.ofKeyword?_keyword]
  dsimp only
  cases SystemOption.read scope owner kind value with
  | error => rfl
  | ok option =>
    dsimp only [bind, Except.bind]
    rw [hinsert]
    rfl

/-- A query of one option has the option as its only content. -/
theorem Query.read_option (hlength : (kind.keyword ++ "=" ++ written).utf8ByteSize ≤ limits.queryLength)
    (hencodes : Text.Percent.Encodes (· ≠ '&') value.toList written.toList) :
    read schema limits owner (kind.keyword ++ "=" ++ written) =
      (SystemOption.read { schema, limits } owner kind value).map fun option =>
        { system := OptionSet.empty.set option } := by
  have hsystem := QueryPart.isSystem_keyword kind value
  have halias := QueryPart.parameterAlias?_of_isSystem hsystem
  have hcustom : ¬ (⟨kind.keyword, value⟩ : QueryPart).isCustom = true := by
    rw [QueryPart.isCustom_iff, hsystem]
    rintro ⟨-, ⟨⟩⟩
  rw [read, if_neg (Nat.not_lt.mpr hlength), QueryPart.listOf_option hencodes]
  dsimp only
  rw [List.filterMap_cons_none halias, List.filter_cons_of_pos hsystem, List.filter_cons_of_neg hcustom]
  rw [List.filter_nil, List.filter_nil, List.foldlM_cons]
  change (addOption { schema, limits } owner ∅ ⟨kind.keyword, value⟩ >>= pure) >>=
    (fun system => pure ({ system } : Query)) = _
  rw [addOption_empty]
  cases SystemOption.read { schema, limits } owner kind value <;> rfl

end

/-! ## Expansions -/

/-- An expansion is read from a query of its own as it is read by itself, whichever way it is encoded
there. -/
theorem Query.read_expansion (schema : Schema) (owner : StructuredType) (text written : String)
    (hencodes : Text.Percent.Encodes (· ≠ '&') text.toList written.toList)
    (hlength : ("$expand=" ++ written).utf8ByteSize ≤ ({} : Limits).queryLength) :
    read schema {} owner ("$expand=" ++ written) =
      (Expand.read schema owner text).map fun expand => { system := { expand := some expand } } := by
  have hvalue : SystemOption.read { schema } owner .expand text =
      (Expand.read schema owner text).map .expand := by
    rw [SystemOption.read_eq_onText (by decide), Expand.read, ← onText_map, ← complete_map]
    rfl
  have hsize : (OptionKind.expand.keyword ++ "=" ++ written).utf8ByteSize ≤
      ({} : Limits).queryLength := hlength
  have hoption : read schema {} owner ("$expand=" ++ written) =
      (SystemOption.read { schema } owner .expand text).map fun option =>
        { system := OptionSet.empty.set option } := read_option hsize hencodes
  rw [hoption, hvalue]
  cases Expand.read schema owner text <;> rfl

theorem Query.read_expansion_shop :
    (∃ expand, Expand.read .shop .shopCustomer "Orders($filter=Customer/Name eq 'a&b')" = .ok expand ∧
      read .shop {} .shopCustomer ("$expand=" ++ "Orders($filter=Customer/Name eq 'a%26b')") =
        .ok { system := { expand := some expand } }) ∧
    ∃ fault, Expand.read .shop .shopCustomer "Orders&" = .error fault ∧
      read .shop {} .shopCustomer ("$expand=" ++ "Orders%26") = .error fault := by
  constructor
  · have hencodes := Text.Percent.encodes_encode (· ≠ '&')
      "Orders($filter=Customer/Name eq 'a&b')".toList
    obtain ⟨expand, hread⟩ := Fault.exists_ok_of_isOk (by decide +kernel : (Expand.read .shop
      .shopCustomer "Orders($filter=Customer/Name eq 'a&b')").isOk = true)
    refine ⟨expand, hread, ?_⟩
    rw [read_expansion .shop .shopCustomer _ "Orders($filter=Customer/Name eq 'a%26b')" hencodes
      (by decide +kernel), hread]
    rfl
  · have hencodes := Text.Percent.encodes_encode (· ≠ '&') "Orders&".toList
    obtain ⟨fault, hread⟩ := Fault.exists_error_of_isOk (by decide +kernel : (Expand.read .shop
      .shopCustomer "Orders&").isOk = false)
    refine ⟨fault, hread, ?_⟩
    rw [read_expansion .shop .shopCustomer _ "Orders%26" hencodes (by decide +kernel), hread]
    rfl

end ODataOptions
