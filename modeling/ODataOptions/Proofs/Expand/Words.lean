import ODataOptions.Expand.Printer
import ODataOptions.Proofs.Expand.Validity
import ODataOptions.Proofs.SystemOption.Completeness

/-!
# Words of expansions

The words that the canonical text of an expansion is written in, and the expressions and searches that
are found in its options.
-/

namespace ODataOptions

namespace PathSegment

def words : PathSegment → List Word
  | .complex property cast => StructuredType.narrowedWords property.name cast
  | .navigation target entityCast collectionCast =>
    StructuredType.narrowedWords target.name (entityCast <|> collectionCast)
  | .ref => [⟨.ref, "$ref"⟩]
  | .count => [OptionKind.count.word]

/-- The words of a path, where the steps that can only end it stand behind the star. -/
def pathWords (cast : Option StructuredType) (segments : List PathSegment) (star : Bool) : List Word :=
  Word.joined .slash <|
    (cast.toList.map fun cast => [cast.word]) ++
    (segments.filter (!·.isSuffix)).map words ++
    (if star then [[.star]] else []) ++
    (segments.filter isSuffix).map words

end PathSegment

namespace ExpandItem

def starWords (ref : Bool) (levels : Option Levels) : List Word :=
  if ref then .star :: .slash :: PathSegment.ref.words
  else
    match levels with
    | some levels =>
      .star :: .openParen :: OptionKind.levels.word :: .equals :: levels.words ++ [.closeParen]
    | none => [.star]

mutual

def words : ExpandItem → List Word
  | .star ref levels => starWords ref levels
  | .path cast segments every options =>
    PathSegment.pathWords cast segments every ++ (optionWords options).words

def allWords : List ExpandItem → List (List Word)
  | [] => []
  | item :: items => words item :: allWords items

def expandWords : Option (List ExpandItem) → Option (List Word)
  | none => none
  | some items => some (Word.joined .comma (allWords items))

def optionWords : OptionSet (List ExpandItem) → OptionSet (List Word)
  | ⟨count, expand, filter, levels, orderBy, search, select, skip, top⟩ =>
    ⟨count, expandWords expand, filter, levels, orderBy, search, select, skip, top⟩

end

mutual

/-- The expressions and searches in the options of an item, at any depth. -/
def criteria : ExpandItem → List Criterion
  | .star _ _ => []
  | .path _ _ _ options => (optionCriteria options).criteria

def allCriteria : List ExpandItem → List Criterion
  | [] => []
  | item :: items => criteria item ++ allCriteria items

def expandCriteria : Option (List ExpandItem) → Option (List Criterion)
  | none => none
  | some items => some (allCriteria items)

def optionCriteria : OptionSet (List ExpandItem) → OptionSet (List Criterion)
  | ⟨count, expand, filter, levels, orderBy, search, select, skip, top⟩ =>
    ⟨count, expandCriteria expand, filter, levels, orderBy, search, select, skip, top⟩

end

end ExpandItem

namespace Expand

def words (expand : Expand) : List Word := Word.joined .comma (ExpandItem.allWords expand)

def criteria (expand : Expand) : List Criterion := ExpandItem.allCriteria expand

end Expand

namespace ExpandItem

theorem allWords_eq_map (items : List ExpandItem) : allWords items = items.map words := by
  induction items with
  | nil => rfl
  | cons item items ih => simp [allWords, ih]

theorem allCriteria_eq_flatMap (items : List ExpandItem) :
    allCriteria items = items.flatMap criteria := by
  induction items with
  | nil => rfl
  | cons item items ih => simp [allCriteria, ih]

theorem optionWords_eq_map (options : OptionSet Expand) :
    optionWords options = options.map Expand.words := by
  cases options with
  | mk count expand => cases expand <;> simp [optionWords, expandWords, OptionSet.map, Expand.words]

theorem optionCriteria_eq_map (options : OptionSet Expand) :
    optionCriteria options = options.map Expand.criteria := by
  cases options with
  | mk count expand =>
    cases expand <;> simp [optionCriteria, expandCriteria, OptionSet.map, Expand.criteria]

end ExpandItem

/-! ## Texts and their words -/

namespace PathSegment

variable {schema : Schema} {owner last : StructuredType} {path : List PathSegment}

theorem isToken_ref : Word.IsToken ⟨.ref, "$ref"⟩ := ⟨_, rfl⟩

theorem writes_narrowed {name : String} {cast : Option StructuredType}
    (hname : (Word.identifier name).IsToken)
    (hcast : ∀ narrowed ∈ cast, owner.CastsTo schema Word.IsToken narrowed) :
    Writes (printNarrowed name cast) (StructuredType.narrowedWords name cast) := by
  cases cast with
  | none => exact writes_identifier hname
  | some cast => exact (hcast cast rfl).writes_narrowed hname

theorem Passes.writes (hpath : Passes schema Word.IsToken owner path last) :
    ∀ segment ∈ path, Writes segment.print segment.words := by
  induction hpath with
  | nil => simp
  | cons hfound hword htype hcast _ ih =>
    exact List.forall_mem_cons.mpr ⟨writes_narrowed hword hcast, ih⟩

theorem Arrives.writes {star : Bool} (hpath : Arrives schema Word.IsToken owner path star last) :
    ∀ segment ∈ path, Writes segment.print segment.words := by
  cases hpath with
  | navigation hpath hplain hfound hword hentity hcollection hcast =>
    refine List.forall_mem_append.mpr ⟨hpath.writes, List.forall_mem_singleton.mpr ?_⟩
    exact writes_narrowed hword hcast
  | star hpath => exact hpath.writes

theorem writes_suffix (context : OptionContext) :
    ∀ segment ∈ context.suffix, Writes segment.print segment.words := by
  cases context with
  | plain => simp [OptionContext.suffix]
  | references =>
    exact List.forall_mem_singleton.mpr (isToken_ref.writes (by decide) (by decide))
  | counting =>
    have hword := OptionKind.isToken_word .count
    exact List.forall_mem_singleton.mpr (hword.writes (by decide) (by decide))

/-- A path is written with a slash between its steps, the star included. -/
theorem writes_path {cast : Option StructuredType} {segments : List PathSegment}
    (hcast : ∀ narrowed ∈ cast, owner.CastsTo schema Word.IsToken narrowed)
    (hsegments : ∀ segment ∈ segments, Writes segment.print segment.words) (star : Bool) :
    Writes (printPath cast segments star) (pathWords cast segments star) := by
  have hcasts : ∀ narrowed ∈ cast.toList, Writes narrowed.print [narrowed.word] :=
    fun narrowed hmem => (hcast narrowed (Option.mem_toList.mp hmem)).writes
  have hstar : List.Forall₂ Writes (if star then ["*"] else [])
      (if star then [[Word.star]] else []) := by
    cases star with
    | false => exact .nil
    | true => exact .cons opens_star.writes .nil
  have hfiltered : ∀ test : PathSegment → Bool, List.Forall₂ Writes
      ((segments.filter test).map print) ((segments.filter test).map words) :=
    fun test => forall₂_writes fun segment hmem => hsegments segment (List.mem_filter.mp hmem).1
  exact writes_intercalate .slash delimits_slash opens_slash
    (List.rel_append (List.rel_append (List.rel_append (forall₂_writes hcasts) (hfiltered _)) hstar)
      (hfiltered _))

end PathSegment

namespace ExpandItem

theorem writes_star {ref : Bool} {levels : Option Levels} :
    Writes (printStar ref levels) (starWords ref levels) := by
  cases ref with
  | true =>
    have hslash := opens_star.append opens_slash
    have htext : "*" ++ "/" ++ "$ref" = "*/$ref" := by simp
    have hwrites := hslash.append_writes
      (PathSegment.isToken_ref.writes (by decide) (by decide))
    rw [htext] at hwrites
    exact hwrites
  | false =>
    cases levels with
    | none => exact opens_star.writes
    | some levels =>
      have hkeyword := (OptionKind.isToken_word .levels).writes (by decide) (by decide)
      have hopens := ((opens_star.append opens_openParen).append_writes hkeyword).append_opens
        delimits_equals opens_equals
      have htext : "*" ++ "(" ++ OptionKind.levels.keyword ++ "=" = "*($levels=" := by
        simp [OptionKind.keyword]
      rw [htext] at hopens
      exact (hopens.append_writes levels.writes).append delimits_closeParen opens_closeParen.writes

variable {scope : Scope} {nested : StructuredType → Expand → Prop} {owner : StructuredType}

theorem writes {item : ExpandItem}
    (hnested : ∀ owner expand, nested owner expand → Writes (Expand.print expand) (Expand.words expand))
    (hitem : item.Valid scope Word.IsToken nested owner) : Writes item.print item.words := by
  cases hitem with
  | star => exact writes_star
  | @path cast path star last context options hcast hpath hstar hoptions =>
    have hsegments := List.forall_mem_append.mpr ⟨hpath.writes, PathSegment.writes_suffix context⟩
    have hwritten := PathSegment.writes_path hcast hsegments star
    have hall := OptionSet.writes hnested hoptions
    rw [print, words, optionTexts_eq_map, optionWords_eq_map]
    simp only [OptionSet.isEmpty_map]
    split
    · next hempty =>
      rw [OptionSet.words_map, if_pos hempty, List.append_nil]
      exact hwritten
    · next hempty =>
      rw [if_neg hempty] at hall
      have hdelimits : Delimits ("(" ++ (options.map Expand.print).print ++ ")") :=
        ⟨'(', by simp, by decide⟩
      have hwrites := hwritten.append hdelimits hall
      rw [← String.append_assoc, ← String.append_assoc] at hwrites
      exact hwrites

end ExpandItem

/-- The canonical text of a valid expansion is read as the words of the expansion. -/
theorem Expand.ValidWithin.writes {scope : Scope} {levels : Nat} {owner : StructuredType} {expand : Expand}
    (hexpand : expand.ValidWithin scope Word.IsToken levels owner) :
    Writes expand.print expand.words := by
  induction levels generalizing owner expand with
  | zero => exact hexpand.elim
  | succ levels ih =>
    rw [print, words, ExpandItem.printAll_eq_map, ExpandItem.allWords_eq_map]
    exact writes_intercalate .comma delimits_comma opens_comma <| forall₂_writes fun item hmem =>
      ExpandItem.writes (fun _ _ => ih) (hexpand.2 item hmem)

end ODataOptions
