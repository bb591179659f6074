import ODataOptions.Proofs.Expand.Reading

/-!
# Expansions are read back

An item ends before a comma or before the end of a value.  A valid expansion is read back exactly if
the limit of levels admits the expressions and searches in its options, at any depth.
-/

namespace ODataOptions

open ODataOptions.Parser

variable {scope : Scope} {owner : StructuredType}

namespace ExpandItem

variable {nested : StructuredType → Expand → Prop} {item : ExpandItem}

/-- A star is read with `/$ref` or with its levels, or alone. -/
theorem reads_parseStar {ref : Bool} {levels : Option Levels} (honce : ref = true → levels = none)
    (hlevels : ∀ count ∈ levels, count.Valid) :
    ∃ words, starWords ref levels = .star :: words ∧
      Reads parseStar 0 words Word.EndsItem True (· = .star ref levels) := by
  cases ref with
  | true =>
    obtain rfl := honce rfl
    exact ⟨_, rfl, reads_accept rfl (reads_expect rfl fun _ _ => reads_pure trivial rfl)⟩
  | false =>
    cases levels with
    | none =>
      refine ⟨_, rfl, declines_accept (fun word hword => ?_) ?_⟩
      · exact Word.isA_eq_false rfl (hword.kind_ne _ (by decide))
      · refine declines_accept (fun word hword => ?_) (reads_pure trivial rfl)
        exact Word.isA_eq_false rfl (hword.kind_ne _ (by decide))
    | some levels =>
      refine ⟨_, rfl, declines_accept rfl (reads_accept rfl ?_)⟩
      apply reads_expect rfl
      intro _ _
      apply reads_expect rfl
      intro _ _
      apply (Levels.reads_parse (hlevels levels rfl)).bind_sure (ahead_true _ _)
      rintro _ rfl
      exact reads_expect rfl fun _ _ => reads_pure trivial rfl

/-- Behind the path of an item comes no slash, whether options follow or not. -/
theorem ahead_options (options : OptionSet Expand) :
    Ahead (options.map Expand.words).words Word.EndsItem fun word => word.kind ≠ .slash := by
  rw [OptionSet.words]
  split
  · exact fun word hword => hword.kind_ne _ (by decide)
  · exact (by decide : TokenKind.openParen ≠ .slash)

variable {expansion : StructuredType → Parser Expand}
  (hnested : ∀ owner expand, nested owner expand →
    Reads (expansion owner) 0 expand.words Word.EndsValue
      (∀ criterion ∈ expand.criteria, criterion.Fits scope.limits.expressionDepth) (· = expand))

include hnested

/-- A path and the options behind it. -/
theorem reads_parsePath (cast : Option StructuredType) {path : List PathSegment} {star : Bool}
    {last : StructuredType} {context : OptionContext} {options : OptionSet Expand}
    (hpath : PathSegment.Arrives scope.schema Word.IsToken owner path star last)
    (hoptions : options.Valid scope Word.IsToken nested last context) :
    Reads (parsePath scope expansion cast owner) 0
      (PathSegment.pathWords none (path ++ context.suffix) star ++ (options.map Expand.words).words)
      Word.EndsItem
      (∀ criterion ∈ (options.map Expand.criteria).criteria,
        criterion.Fits scope.limits.expressionDepth)
      (· = .path cast (path ++ context.suffix) star options) := by
  apply hpath.reads (ahead_options options) context
  intro slash
  refine (OptionSet.reads_parse hnested hoptions fun word hword => ?_).map ?_
  · exact hword.kind_ne _ (by decide)
  · rintro _ rfl
    rfl

/-- A valid item is read back, if the expressions in its options fit the limits. -/
theorem reads_parse (hitem : item.Valid scope Word.IsToken nested owner) :
    Reads (parse scope expansion owner) 0 item.words Word.EndsItem
      (∀ criterion ∈ item.criteria, criterion.Fits scope.limits.expressionDepth) (· = item) := by
  cases hitem with
  | star honce hlevels =>
    obtain ⟨words, hwords, hread⟩ := reads_parseStar honce hlevels
    rw [ExpandItem.words, hwords]
    exact reads_accept rfl (hread.congr_fits (by simp [criteria]))
  | @path cast path star last context options hcast hpath hstar hoptions =>
    rw [ExpandItem.words, hpath.pathWords_eq, optionWords_eq_map, ExpandItem.criteria,
      optionCriteria_eq_map, List.append_assoc]
    have hread := reads_parsePath hnested cast hpath hoptions
    cases cast with
    | none =>
      have hstarred : star = true → path ≠ [] :=
        fun htrue => (hstar htrue).resolve_left fun hcast => hcast rfl
      have hfirst : Ahead (PathSegment.pathWords none (path ++ context.suffix) star ++
          (options.map Expand.words).words) Word.EndsItem fun word => word.kind = .identifier :=
        hpath.ahead hstarred context _
      refine declines_accept (hfirst.mono fun word hword => ?_) ?_
      · exact Word.isA_eq_false rfl (by rw [hword]; decide)
      · refine (StructuredType.declines_parseCast? fun _ h => h).bind_sure
          (hfirst.mono fun word hword => by rw [hword]; decide) ?_
        rintro _ rfl
        exact hread
    | some cast =>
      refine declines_accept
        (Word.isA_eq_false rfl (by decide : TokenKind.qualifiedName ≠ .star)) ?_
      apply (hcast cast rfl).reads.bind_sure (ahead_true _ _)
      rintro _ rfl
      exact reads_expect rfl fun _ _ => hread

end ExpandItem

/-- A valid expansion of so many levels is read back from its words. -/
theorem Expand.reads_parseWithin {levels : Nat} {expand : Expand}
    (hexpand : expand.ValidWithin scope Word.IsToken levels owner) :
    Reads (parseWithin scope levels owner) 0 expand.words Word.EndsValue
      (∀ criterion ∈ expand.criteria, criterion.Fits scope.limits.expressionDepth)
      (· = expand) := by
  induction levels generalizing owner expand with
  | zero => exact hexpand.elim
  | succ levels ih =>
    obtain ⟨hne, hitems⟩ := hexpand
    rw [words, criteria, ExpandItem.allWords_eq_map, ExpandItem.allCriteria_eq_flatMap]
    refine Reads.congr_fits ?_ List.forall_mem_flatMap
    refine Reads.separated_self .comma rfl (fun word hword => ?_) hne fun item hmem => ?_
    · exact Word.isA_eq_false rfl (hword.kind_ne _ (by decide))
    · exact ExpandItem.reads_parse (fun _ _ => ih) (hitems item hmem)

end ODataOptions
