import ODataOptions.Proofs.Parser.Yields
import ODataOptions.Proofs.Schema.Lookup
import ODataOptions.Schema.Cast

/-!
# Types that a path can be narrowed to

A cast names a type of the schema that is derived from the type that the path has come to.  Its name
is one word, and reading that word gives the name back.
-/

namespace ODataOptions

open ODataOptions.Parser

namespace QualifiedName

/-- A name that is read from a text is written as that text. -/
theorem print_of_parse? {text : String} {name : QualifiedName} (hparse : parse? text = some name) :
    name.print = text := by
  simp only [parse?] at hparse
  split at hparse
  · cases hparse
  · next hparts =>
    cases hparse
    simp only [Bool.or_eq_true, not_or, List.isEmpty_iff, List.reverse_eq_nil_iff] at hparts
    obtain ⟨-, hqualifier⟩ := hparts
    have hsplit := List.takeWhile_append_dropWhile (p := (· ≠ '.')) (l := text.toList.reverse)
    cases hdrop : text.toList.reverse.dropWhile (· ≠ '.') with
    | nil =>
      rw [hdrop] at hqualifier
      exact absurd rfl hqualifier
    | cons dot rest =>
      have hdot : dot = '.' := by
        have := List.head?_dropWhile_not (· ≠ '.') text.toList.reverse
        rw [hdrop] at this
        simpa using this
      have htext : text.toList =
          rest.reverse ++ '.' :: (text.toList.reverse.takeWhile (· ≠ '.')).reverse := by
        rw [hdrop, hdot] at hsplit
        have := congrArg List.reverse hsplit
        simpa using this.symm
      apply String.toList_injective
      rw [print, String.toList_append, String.toList_append, String.toList_ofList,
        String.toList_ofList]
      simpa using htext.symm

end QualifiedName

/-- The type `cast` is one that a path which has come to the type `owner` can be narrowed to, by a
word of the vocabulary. -/
structure StructuredType.CastsTo (schema : Schema) (words : Vocabulary)
    (owner cast : StructuredType) : Prop where
  found : schema.type? owner.kind cast.name = some cast
  compatible : schema.isCompatible cast owner = true
  word : words ⟨.qualifiedName, cast.print⟩
  split : QualifiedName.parse? cast.print = some cast.name

/-- Where there is no cast, nothing is consumed. -/
theorem StructuredType.eq_of_parseCast?_none {schema : Schema} {owner : StructuredType}
    {cursor rest : Cursor} (hrun : owner.parseCast? schema cursor = .ok none rest) :
    rest = cursor := by
  obtain ⟨token?, middle, htoken, hrun⟩ := bind_eq_ok_iff.mp hrun
  rw [take?, takeIf_run] at htoken
  split at htoken
  · cases htoken
    cases hresult : (QualifiedName.parse? cursor.current.text).bind (schema.type? owner.kind) with
    | none =>
      simp only [hresult] at hrun
      cases hrun
    | some cast =>
      simp only [hresult] at hrun
      split at hrun <;> cases hrun
  · cases htoken
    cases hrun
    rfl

/-- A cast leads to a type derived from the one referred to. -/
theorem StructuredType.yields_parseCast? {schema : Schema} {words : Vocabulary}
    (owner : StructuredType) :
    Yields words (owner.parseCast? schema) fun cast? =>
      ∀ cast ∈ cast?, owner.CastsTo schema words cast := by
  apply (yields_take? (by decide)).bind
  intro token? htoken
  cases token? with
  | none => exact .pure (by simp)
  | some token =>
    obtain ⟨hisA, hword⟩ := htoken token rfl
    have hkind : token.kind = .qualifiedName := (Token.isA_iff_kind_eq rfl).mp hisA
    rw [Token.word, hkind] at hword
    cases hresult : (QualifiedName.parse? token.text).bind (schema.type? owner.kind) with
    | none =>
      simp only [hresult]
      exact yields_throw _
    | some cast =>
      simp only [hresult]
      obtain ⟨name, hsplit, hfound⟩ := Option.bind_eq_some_iff.mp hresult
      have hname : cast.name = name := by rw [Schema.eq_of_type? hfound]
      have hprint : cast.print = token.text := by
        rw [StructuredType.print, hname, QualifiedName.print_of_parse? hsplit]
      split
      · next hcompatible =>
        refine .pure ?_
        intro other hother
        obtain rfl := Option.mem_some.mp hother
        refine ⟨?_, hcompatible, ?_, ?_⟩
        · rw [hname]; exact hfound
        · rw [hprint]; exact hword
        · rw [hprint, hname]; exact hsplit
      · exact yields_throw _

end ODataOptions
