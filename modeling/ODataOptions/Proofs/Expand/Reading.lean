import ODataOptions.Proofs.Expand.Soundness
import ODataOptions.Proofs.Expand.Words

/-!
# Reading of expanded paths

A path is read step by step.  The slash behind a navigation property may belong to a cast or to the
suffix, so it is taken with the navigation property if no cast follows, and with the suffix otherwise.
-/

namespace ODataOptions

open ODataOptions.Parser

namespace PathSegment

variable {schema : Schema} {owner last : StructuredType} {path : List PathSegment}
  {follow : Word → Prop}

def stepWords (path : List PathSegment) : List Word := path.flatMap fun step => step.words ++ [.slash]

def suffixWords (path : List PathSegment) : List Word := path.flatMap fun step => .slash :: step.words

/-- What ends a path through complex properties at a type: it is neither the name of a complex property
of the type nor that of a cast. -/
def EndsPath (schema : Schema) (last : StructuredType) (word : Word) : Prop :=
  word.kind ≠ .qualifiedName ∧
    ∀ token : Token, token.word = word → complexProperty? schema last token = none

theorem ends_star : EndsPath schema last .star := by
  refine ⟨by decide, fun token hword => ?_⟩
  have hkind : token.kind = .star := congrArg Word.kind hword
  exact complexProperty?_of_kind_ne (hkind ▸ by decide)

theorem ends_navigation {target : Navigation}
    (hplain : ∀ property, schema.property? last target.name = some property →
      property.complexType? = none) : EndsPath schema last (.identifier target.name) := by
  refine ⟨(by decide : TokenKind.identifier ≠ .qualifiedName), fun token hword => ?_⟩
  have hkind : token.kind = .identifier := congrArg Word.kind hword
  have htext : token.text = target.name := congrArg Word.text hword
  cases hproperty : schema.property? last target.name with
  | none => simp [complexProperty?_of_identifier hkind, htext, hproperty]
  | some property =>
    simp [complexProperty?_of_identifier hkind, htext, hproperty, hplain property hproperty]

/-! ## Complex properties -/

theorem reads_parseComplex? {type : StructuredType} {property : Property}
    {cast : Option StructuredType} (segments : List PathSegment)
    (hfound : schema.property? owner property.name = some property)
    (htype : property.complexType? = some type)
    (hcast : ∀ narrowed ∈ cast, type.CastsTo schema Word.IsToken narrowed) :
    Reads (parseComplex? schema ⟨segments, owner⟩) 0 ((complex property cast).words ++ [.slash])
      (fun word => word.kind ≠ .qualifiedName) True fun next? =>
        ∃ next, next? = some next ∧
          next = ⟨segments ++ [.complex property cast], cast.getD type⟩ := by
  have hproperty : ∀ token : Token, token.word = .identifier property.name →
      complexProperty? schema owner token = some (property, type) := by
    intro token hword
    have hkind : token.kind = .identifier := congrArg Word.kind hword
    have htext : token.text = property.name := congrArg Word.text hword
    simp [complexProperty?_of_identifier hkind, htext, hfound, htype]
  cases cast with
  | none =>
    refine reads_current (R := (· = .identifier property.name)) rfl ?_
    intro token hword
    simp only [hproperty token hword]
    apply reads_next
    intro _ _
    apply reads_expect rfl
    intro _ _
    apply (StructuredType.declines_parseCast? fun _ h => h).bind_end (fun _ h => h)
    rintro _ rfl
    exact reads_pure trivial ⟨_, rfl, rfl⟩
  | some cast =>
    refine reads_current (R := (· = .identifier property.name)) rfl ?_
    intro token hword
    simp only [hproperty token hword]
    apply reads_next
    intro _ _
    apply reads_expect rfl
    intro _ _
    change Reads _ 0 ([cast.word] ++ [.slash]) _ _ _
    apply (hcast cast rfl).reads.bind_sure (ahead_true _ _)
    rintro _ rfl
    exact reads_expect rfl fun _ _ => reads_pure trivial ⟨_, rfl, rfl⟩

/-- A path is not gone on with where the next word ends it. -/
theorem declines_parseComplex? (segments : List PathSegment)
    (hfollow : ∀ word, follow word → EndsPath schema last word) :
    Reads (parseComplex? schema ⟨segments, last⟩) 0 [] follow True (· = none) := by
  refine reads_current (R := EndsPath schema last) hfollow ?_
  intro token hends
  simp only [hends.2 token rfl]
  exact reads_pure trivial rfl

/-- No path begins with the name of a type, so that no cast is seen in front of it. -/
theorem Passes.ahead_words (hpath : Passes schema Word.IsToken owner path last)
    (hfollow : ∀ word, follow word → EndsPath schema last word) :
    Ahead (stepWords path) follow fun word => word.kind ≠ .qualifiedName := by
  cases hpath with
  | nil => exact fun word hword => (hfollow word hword).1
  | @cons _ _ _ property cast =>
    cases cast <;> exact (by decide : TokenKind.identifier ≠ .qualifiedName)

/-- The loop over complex properties reads a path and comes to its last type. -/
theorem Passes.reads_loop (hpath : Passes schema Word.IsToken owner path last)
    (hfollow : ∀ word, follow word → EndsPath schema last word) (segments : List PathSegment)
    (rounds : Nat) (hrounds : path.length ≤ rounds) :
    Reads (iterateUpTo (parseComplex? schema) rounds ⟨segments, owner⟩) 0 (stepWords path) follow
      True (· = ⟨segments ++ path, last⟩) := by
  induction hpath generalizing segments rounds with
  | nil => exact reads_iterateUpTo_stop trivial (by simp) (declines_parseComplex? _ hfollow) rounds
  | @cons owner type last property cast path hfound hword htype hcast hrest ih =>
    obtain ⟨rounds, rfl⟩ : ∃ more, rounds = more + 1 := Nat.exists_eq_succ_of_ne_zero (by
      rw [List.length_cons] at hrounds
      exact Nat.ne_of_gt (Nat.lt_of_lt_of_le (Nat.succ_pos _) hrounds))
    have hrest' := ih hfollow (segments ++ [.complex property cast]) rounds
      (Nat.le_of_succ_le_succ hrounds)
    have hloop := reads_iterateUpTo_step (reads_parseComplex? segments hfound htype hcast)
      (hrest.ahead_words hfollow) (fun next hnext => hnext ▸ hrest')
    rw [stepWords, List.flatMap_cons, List.append_cons segments]
    exact hloop.congr_fits (iff_of_eq (true_and True).symm)

theorem length_le_stepWords (path : List PathSegment) : path.length ≤ (stepWords path).length := by
  induction path with
  | nil => exact Nat.le_refl 0
  | cons step path ih =>
    rw [stepWords, List.flatMap_cons, List.length_append, List.length_append, List.length_cons]
    have hslash : [Word.slash].length = 1 := rfl
    change path.length ≤ (List.flatMap (fun step => step.words ++ [.slash]) path).length at ih
    omega

/-- The loop takes all steps of the path and stops behind them. -/
theorem Passes.reads (hpath : Passes schema Word.IsToken owner path last)
    (hfollow : ∀ word, follow word → EndsPath schema last word) :
    Reads (iterate (parseComplex? schema) { owner }) 0 (stepWords path) follow True
      (· = ⟨path, last⟩) :=
  Reads.iterate path.length (Nat.le_succ_of_le (length_le_stepWords path)) fun rounds hrounds =>
    hpath.reads_loop hfollow [] rounds hrounds

/-! ## Navigation properties -/

section Navigation

variable {progress : Progress} {token : Token} {target : Navigation}

/-- How a navigation property is narrowed is told by whether it leads to many entities. -/
theorem narrowed_eq_navigation {entityCast collectionCast : Option StructuredType}
    (hentity : entityCast ≠ none → target.collection = false)
    (hcollection : collectionCast ≠ none → target.collection = true) :
    narrowed target (entityCast <|> collectionCast) =
      .navigation target entityCast collectionCast := by
  rw [narrowed]
  split
  · next hmany =>
    cases entityCast with
    | none => rfl
    | some cast => exact absurd ((hentity (by simp)).symm.trans hmany) (by decide)
  · next hone =>
    cases collectionCast with
    | none => cases entityCast <;> rfl
    | some cast => exact absurd (hcollection (by simp)) hone

variable (hfound : schema.navigation? progress.owner token.text = some target)
include hfound

theorem reads_parseNavigation_plain (hfollow : ∀ word, follow word → word.kind ≠ .slash) :
    Reads (parseNavigation schema progress token) 0 [] follow True
      (· = ⟨progress.segments ++ [narrowed target none], false, target.targetType, false⟩) := by
  rw [parseNavigation]
  rw [hfound]
  refine declines_accept (fun word hword => Word.isA_eq_false rfl (hfollow word hword)) ?_
  exact reads_pure trivial rfl

/-- The slash is taken where no cast comes behind it. -/
theorem reads_parseNavigation_slash (hfollow : ∀ word, follow word → word.kind ≠ .qualifiedName) :
    Reads (parseNavigation schema progress token) 0 [.slash] follow True
      (· = ⟨progress.segments ++ [narrowed target none], false, target.targetType, true⟩) := by
  rw [parseNavigation]
  rw [hfound]
  refine reads_accept rfl ((StructuredType.declines_parseCast? hfollow).bind_end (fun _ h => h) ?_)
  rintro _ rfl
  exact reads_pure trivial rfl

theorem reads_parseNavigation_cast {cast : StructuredType}
    (hcast : target.targetType.CastsTo schema Word.IsToken cast) :
    Reads (parseNavigation schema progress token) 0 [.slash, cast.word] follow True
      (· = ⟨progress.segments ++ [narrowed target (some cast)], false, cast, false⟩) := by
  rw [parseNavigation]
  rw [hfound]
  refine reads_accept rfl (hcast.reads.bind_end (fun _ h => h) ?_)
  rintro _ rfl
  exact reads_pure trivial rfl

end Navigation

/-! ## Suffixes -/

theorem reads_parseSuffix (context : OptionContext)
    (hfollow : ∀ word, follow word → word.kind ≠ .slash) :
    Reads (parseSuffix false) 0 (suffixWords context.suffix) follow True
      (· = (context.suffix, context)) := by
  cases context with
  | plain =>
    refine declines_accept (fun word hword => Word.isA_eq_false rfl (hfollow word hword)) ?_
    exact reads_pure trivial rfl
  | references => exact reads_accept rfl (reads_accept rfl (reads_pure trivial rfl))
  | counting =>
    exact reads_accept rfl (declines_accept (Word.isA_eq_false rfl (by decide))
      (reads_accept rfl (reads_pure trivial rfl)))

/-- The suffix behind a slash that has been taken already. -/
theorem reads_parseSuffix_taken {context : OptionContext} (hcontext : context ≠ .plain) :
    ∃ words, suffixWords context.suffix = .slash :: words ∧
      Ahead words follow (fun word => word.kind ≠ .qualifiedName) ∧
      Reads (parseSuffix true) 0 words follow True (· = (context.suffix, context)) := by
  cases context with
  | plain => exact absurd rfl hcontext
  | references =>
    exact ⟨_, rfl, (by decide : TokenKind.ref ≠ .qualifiedName),
      reads_accept rfl (reads_pure trivial rfl)⟩
  | counting =>
    exact ⟨_, rfl, (by decide : TokenKind.option .count ≠ .qualifiedName),
      declines_accept (Word.isA_eq_false rfl (by decide))
        (reads_accept rfl (reads_pure trivial rfl))⟩

/-! ## Paths as a whole -/

def leadWords (cast : Option StructuredType) : List Word :=
  cast.toList.flatMap fun cast => [cast.word, .slash]

theorem Passes.isSuffix_eq_false (hpath : Passes schema Word.IsToken owner path last) :
    ∀ step ∈ path, step.isSuffix = false := by
  induction hpath with
  | nil => simp
  | cons _ _ _ _ _ ih => exact List.forall_mem_cons.mpr ⟨rfl, ih⟩

theorem isSuffix_of_mem_suffix {context : OptionContext} :
    ∀ step ∈ context.suffix, step.isSuffix = true := by
  cases context <;> simp [OptionContext.suffix, isSuffix]

theorem pathWords_append (cast : Option StructuredType) {steps : List PathSegment} (star : Bool)
    (context : OptionContext) (hsteps : ∀ step ∈ steps, step.isSuffix = false) :
    pathWords cast (steps ++ context.suffix) star =
      Word.joined .slash ((cast.toList.map fun cast => [cast.word]) ++ steps.map words ++
        (if star then [[.star]] else []) ++ context.suffix.map words) := by
  have hplain : steps.filter (!·.isSuffix) = steps :=
    List.filter_eq_self.mpr fun step hmem => by rw [hsteps step hmem]; rfl
  have hnone : steps.filter isSuffix = [] :=
    List.filter_eq_nil_iff.mpr fun step hmem => by simp [hsteps step hmem]
  have hsuffix : context.suffix.filter isSuffix = context.suffix :=
    List.filter_eq_self.mpr isSuffix_of_mem_suffix
  have hempty : context.suffix.filter (!·.isSuffix) = [] :=
    List.filter_eq_nil_iff.mpr fun step hmem => by simp [isSuffix_of_mem_suffix step hmem]
  rw [pathWords, List.filter_append, List.filter_append, hplain, hnone, hsuffix, hempty,
    List.append_nil, List.nil_append]

theorem Passes.pathWords_star (hpath : Passes schema Word.IsToken owner path last)
    (cast : Option StructuredType) (context : OptionContext) :
    pathWords cast (path ++ context.suffix) true =
      leadWords cast ++ (stepWords path ++ (.star :: suffixWords context.suffix)) := by
  rw [pathWords_append cast true context hpath.isSuffix_eq_false, if_pos rfl,
    List.append_assoc, List.singleton_append, Word.joined_around]
  simp [leadWords, stepWords, suffixWords, List.flatMap_map]

theorem Passes.pathWords_navigation (hpath : Passes schema Word.IsToken owner path last)
    (cast : Option StructuredType) (target : Navigation)
    (entityCast collectionCast : Option StructuredType) (context : OptionContext) :
    pathWords cast (path ++ [.navigation target entityCast collectionCast] ++ context.suffix) false =
      leadWords cast ++ (stepWords path ++
        (StructuredType.narrowedWords target.name (entityCast <|> collectionCast) ++
          suffixWords context.suffix)) := by
  have hsteps : ∀ step ∈ path ++ [.navigation target entityCast collectionCast],
      step.isSuffix = false :=
    List.forall_mem_append.mpr ⟨hpath.isSuffix_eq_false, List.forall_mem_singleton.mpr rfl⟩
  rw [pathWords_append cast false context hsteps, if_neg (by decide), List.append_nil,
    List.map_append, List.map_singleton, ← List.append_assoc, List.append_assoc _ [_],
    List.singleton_append, Word.joined_around]
  simp [leadWords, stepWords, suffixWords, List.flatMap_map, words]

/-- What begins at a derived type is read like what begins at the type itself, behind the cast. -/
theorem Arrives.pathWords_eq {star : Bool} (hpath : Arrives schema Word.IsToken owner path star last)
    (cast : Option StructuredType) (context : OptionContext) :
    pathWords cast (path ++ context.suffix) star =
      leadWords cast ++ pathWords none (path ++ context.suffix) star := by
  cases hpath with
  | navigation hpath =>
    rw [hpath.pathWords_navigation, hpath.pathWords_navigation]
    rfl
  | star hpath =>
    rw [hpath.pathWords_star, hpath.pathWords_star]
    rfl

theorem Passes.ahead_identifier (hpath : Passes schema Word.IsToken owner path last)
    (hne : path ≠ []) (more : List Word) :
    Ahead (stepWords path ++ more) follow fun word => word.kind = .identifier := by
  cases hpath with
  | nil => exact absurd rfl hne
  | @cons _ _ _ property cast => cases cast <;> exact (rfl : TokenKind.identifier = .identifier)

/-- A path begins with a name, unless it is a star alone. -/
theorem Arrives.ahead {star : Bool} (hpath : Arrives schema Word.IsToken owner path star last)
    (hstar : star = true → path ≠ []) (context : OptionContext) (more : List Word) :
    Ahead (pathWords none (path ++ context.suffix) star ++ more) follow fun word =>
      word.kind = .identifier := by
  cases hpath with
  | @navigation _ path target entityCast collectionCast hpath =>
    rw [hpath.pathWords_navigation, List.append_assoc, List.append_assoc]
    by_cases hnil : path = []
    · subst hnil
      cases entityCast <|> collectionCast <;> exact (rfl : TokenKind.identifier = .identifier)
    · exact hpath.ahead_identifier hnil _
  | star hpath =>
    rw [hpath.pathWords_star, List.append_assoc, List.append_assoc]
    exact hpath.ahead_identifier (hstar rfl) _

/-- A path ends at a star. -/
theorem Passes.reads_parsePath_star (hpath : Passes schema Word.IsToken owner path last) :
    Reads (PathSegment.parsePath schema owner) 0 (stepWords path ++ [.star]) follow True
      (· = ⟨path, true, last, false⟩) := by
  have hends : ∀ word, word = .star → EndsPath schema last word := by
    rintro _ rfl
    exact ends_star
  refine (hpath.reads hends).bind_sure rfl ?_
  rintro _ rfl
  refine declines_takeIf (fun token hword => ?_) (reads_accept rfl (reads_pure trivial rfl))
  rw [← Token.isA_word, hword]
  rfl

/-- A path ends with a navigation property, however that is gone on with. -/
theorem Passes.reads_parsePath_navigation {target : Navigation} {P : Target → Prop}
    {words : List Word} (hpath : Passes schema Word.IsToken owner path last)
    (hplain : ∀ property, schema.property? last target.name = some property →
      property.complexType? = none)
    (hfound : schema.navigation? last target.name = some target)
    (hnavigation : ∀ token : Token, schema.navigation? last token.text = some target →
      Reads (parseNavigation schema ⟨path, last⟩ token) 0 words follow True P) :
    Reads (PathSegment.parsePath schema owner) 0 (stepWords path ++ .identifier target.name :: words)
      follow True P := by
  have hends : ∀ word, word = .identifier target.name → EndsPath schema last word := by
    rintro _ rfl
    exact ends_navigation hplain
  refine (hpath.reads hends).bind_sure rfl ?_
  rintro _ rfl
  refine reads_takeIf (fun token hword => ?_) fun token hword => ?_
  · rw [← Token.isA_word, hword]
    rfl
  · have htext : token.text = target.name := congrArg Word.text hword
    exact hnavigation token (htext ▸ hfound)

section Whole

variable {α : Type} {words : List Word} {fits : Prop} {P : α → Prop}
  (hahead : Ahead words follow fun word => word.kind ≠ .slash)

include hahead

theorem reads_suffix {goOn : List PathSegment × OptionContext → Parser α} (context : OptionContext)
    (hgoOn : Reads (goOn (context.suffix, context)) 0 words follow fits P) :
    Reads (parseSuffix false >>= goOn) 0 (suffixWords context.suffix ++ words) follow fits P := by
  apply (reads_parseSuffix context fun _ h => h).bind_sure hahead
  rintro _ rfl
  exact hgoOn

variable {goOn : Target → List PathSegment × OptionContext → Parser α}

/-- The slash in front of the suffix is taken with the navigation property if that is not narrowed. -/
theorem Passes.reads_navigation {target : Navigation} {cast : Option StructuredType}
    (hpath : Passes schema Word.IsToken owner path last)
    (hplain : ∀ property, schema.property? last target.name = some property →
      property.complexType? = none)
    (hfound : schema.navigation? last target.name = some target)
    (hcast : ∀ narrowed ∈ cast, target.targetType.CastsTo schema Word.IsToken narrowed)
    (context : OptionContext)
    (hgoOn : ∀ slash : Bool,
      Reads (goOn ⟨path ++ [narrowed target cast], false, cast.getD target.targetType, slash⟩
        (context.suffix, context)) 0 words follow fits P) :
    Reads (do
        let target ← PathSegment.parsePath schema owner
        goOn target (← parseSuffix target.slash)) 0
      (stepWords path ++ StructuredType.narrowedWords target.name cast ++
        (suffixWords context.suffix ++ words)) follow fits P := by
  cases cast with
  | some cast =>
    refine (hpath.reads_parsePath_navigation hplain hfound fun token htoken =>
      reads_parseNavigation_cast htoken (hcast cast rfl)).bind_sure (ahead_true _ _) ?_
    rintro _ rfl
    exact reads_suffix hahead context (hgoOn false)
  | none =>
    by_cases hcontext : context = .plain
    · subst hcontext
      refine (hpath.reads_parsePath_navigation hplain hfound fun token htoken =>
        reads_parseNavigation_plain htoken fun _ h => h).bind_sure hahead ?_
      rintro _ rfl
      exact reads_suffix hahead .plain (hgoOn false)
    · obtain ⟨rest, hrest, hnext, hsuffix⟩ := reads_parseSuffix_taken hcontext
      have hwords : stepWords path ++ StructuredType.narrowedWords target.name none ++
            (suffixWords context.suffix ++ words) =
          stepWords path ++ .identifier target.name :: [.slash] ++ (rest ++ words) := by
        simp [StructuredType.narrowedWords, hrest]
      rw [hwords]
      refine (hpath.reads_parsePath_navigation hplain hfound fun token htoken =>
        reads_parseNavigation_slash htoken fun _ h => h).bind_sure (hnext.append _) ?_
      rintro _ rfl
      apply hsuffix.bind_sure (ahead_true _ _)
      rintro _ rfl
      exact hgoOn true

/-- A path is read up to the options behind it. -/
theorem Arrives.reads {star : Bool} (hpath : Arrives schema Word.IsToken owner path star last)
    (context : OptionContext)
    (hgoOn : ∀ slash : Bool,
      Reads (goOn ⟨path, star, last, slash⟩ (context.suffix, context)) 0 words follow fits P) :
    Reads (do
        let target ← PathSegment.parsePath schema owner
        goOn target (← parseSuffix target.slash)) 0
      (pathWords none (path ++ context.suffix) star ++ words) follow fits P := by
  cases hpath with
  | star hpath =>
    have hwords : pathWords none (path ++ context.suffix) true ++ words =
        stepWords path ++ [.star] ++ (suffixWords context.suffix ++ words) := by
      rw [hpath.pathWords_star]
      simp [leadWords]
    rw [hwords]
    apply hpath.reads_parsePath_star.bind_sure (ahead_true _ _)
    rintro _ rfl
    exact reads_suffix hahead context (hgoOn false)
  | @navigation last path target entityCast collectionCast hpath hplain hfound hword hentity
      hcollection hcast =>
    have hwords : pathWords none
          (path ++ [.navigation target entityCast collectionCast] ++ context.suffix) false ++ words =
        stepWords path ++
          StructuredType.narrowedWords target.name (entityCast <|> collectionCast) ++
            (suffixWords context.suffix ++ words) := by
      rw [hpath.pathWords_navigation]
      simp [leadWords]
    rw [← narrowed_eq_navigation hentity hcollection] at hgoOn
    rw [hwords]
    exact hpath.reads_navigation hahead hplain hfound hcast context hgoOn

end Whole

end PathSegment

end ODataOptions
