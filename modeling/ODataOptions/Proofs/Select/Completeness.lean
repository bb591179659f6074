import ODataOptions.Proofs.Schema.Completeness
import ODataOptions.Proofs.Select.Validity

/-!
# Selections are read back

A selected path is read back step by step.  Behind a step that a path goes on from comes a slash, and
what comes behind the slash tells whether the step is narrowed.
-/

namespace ODataOptions

open ODataOptions.Parser

namespace SelectSegment

def words (segment : SelectSegment) : List Word :=
  StructuredType.narrowedWords segment.member.name segment.cast

variable {schema : Schema} {owner : StructuredType} {depth : Nat} {follow : Word → Prop}

theorem PathResolves.writes {path : List SelectSegment}
    (hpath : PathResolves schema Word.IsToken owner path) :
    ∀ segment ∈ path, Writes segment.print segment.words := by
  induction hpath with
  | property hfound hword => exact List.forall_mem_singleton.mpr (writes_identifier hword)
  | narrowed hfound hword htype hcast =>
    exact List.forall_mem_singleton.mpr (hcast.writes_narrowed hword)
  | navigation hfree hfound hword => exact List.forall_mem_singleton.mpr (writes_identifier hword)
  | @step _ _ _ cast _ hfound hword htype hcast _ ih =>
    refine List.forall_mem_cons.mpr ⟨?_, ih⟩
    cases cast with
    | none => exact writes_identifier hword
    | some cast => exact (hcast cast rfl).writes_narrowed hword

/-! ## Steps -/

section Property

variable {property : Property} {type cast : StructuredType}

theorem reads_parseProperty_last (hfollow : ∀ word, follow word → word.kind ≠ .slash) :
    Reads (parseProperty schema property) depth [] follow True
      (· = ({ member := .property property }, none)) := by
  rw [parseProperty]
  cases property.complexType? with
  | none => exact reads_pure trivial rfl
  | some type =>
    refine declines_accept (fun word hword => ?_) (reads_pure trivial rfl)
    exact Word.isA_eq_false rfl (hfollow word hword)

theorem reads_parseProperty_plain (htype : property.complexType? = some type) :
    Reads (parseProperty schema property) depth [.slash] (fun word => word.kind ≠ .qualifiedName) True
      (· = ({ member := .property property }, some type)) := by
  rw [parseProperty]
  rw [htype]
  refine reads_accept rfl ((StructuredType.declines_parseCast? fun _ h => h).bind_end (fun _ h => h) ?_)
  rintro _ rfl
  exact reads_pure trivial rfl

variable (htype : property.complexType? = some type) (hcast : type.CastsTo schema Word.IsToken cast)

include htype hcast

theorem reads_parseProperty_narrowed (hfollow : ∀ word, follow word → word.kind ≠ .slash) :
    Reads (parseProperty schema property) depth [.slash, cast.word] follow True
      (· = ({ member := .property property, cast := some cast }, none)) := by
  rw [parseProperty]
  rw [htype]
  refine reads_accept rfl (hcast.reads.bind_end (fun _ h => h) ?_)
  rintro _ rfl
  refine declines_accept (fun word hword => ?_) (reads_pure trivial rfl)
  exact Word.isA_eq_false rfl (hfollow word hword)

theorem reads_parseProperty_step :
    Reads (parseProperty schema property) depth [.slash, cast.word, .slash] follow True
      (· = ({ member := .property property, cast := some cast }, some cast)) := by
  rw [parseProperty]
  rw [htype]
  apply reads_accept rfl
  change Reads _ depth ([cast.word] ++ [.slash]) _ _ _
  apply hcast.reads.bind_sure (ahead_true _ _)
  rintro _ rfl
  exact reads_accept rfl (reads_pure trivial rfl)

end Property

theorem reads_parse_property {property : Property} {words : List Word}
    {P : SelectSegment × Option StructuredType → Prop}
    (hfound : schema.property? owner property.name = some property)
    (hrest : Reads (parseProperty schema property) depth words follow True P) :
    Reads (parse schema owner) depth (.identifier property.name :: words) follow True P := by
  apply reads_expect rfl
  intro token hword
  rw [show token.text = property.name from congrArg Word.text hword]
  simp only [hfound]
  exact hrest

theorem reads_parse_navigation {navigation : Navigation}
    (hfree : schema.property? owner navigation.name = none)
    (hfound : schema.navigation? owner navigation.name = some navigation)
    (hfollow : ∀ word, follow word → word.kind ≠ .slash) :
    Reads (parse schema owner) depth [.identifier navigation.name] follow True
      (· = ({ member := .navigation navigation }, none)) := by
  apply reads_expect rfl
  intro token hword
  rw [show token.text = navigation.name from congrArg Word.text hword]
  simp only [hfree, hfound]
  refine reads_current (R := fun word => word.kind ≠ .slash) hfollow ?_
  intro token hslash
  have hnot : token.isA .slash = false := Word.isA_eq_false rfl hslash
  rw [hnot]
  exact reads_pure trivial rfl

/-! ## Paths -/

theorem PathResolves.exists_words {path : List SelectSegment}
    (hpath : PathResolves schema Word.IsToken owner path) :
    ∃ name more, Word.joined .slash (path.map words) = .identifier name :: more := by
  cases hpath with
  | property | narrowed | navigation => exact ⟨_, _, rfl⟩
  | @step _ _ property cast path _ _ _ _ hrest =>
    cases path with
    | nil => cases hrest
    | cons next path => cases cast <;> exact ⟨_, _, rfl⟩

/-- The last step of a path is read back. -/
theorem reads_last {segment : SelectSegment}
    (hread : Reads (parse schema owner) depth segment.words follow True (· = (segment, none)))
    (rounds : Nat) :
    Reads (unfoldUpTo (parse schema) (rounds + 1) owner) depth
      (Word.joined .slash ([segment].map words)) follow True (· = [segment]) := by
  refine reads_unfoldUpTo_last (hread.imp ?_) rounds
  rintro _ rfl
  exact ⟨rfl, rfl⟩

/-- A step that a slash follows is read back, and the path goes on from the type of its values. -/
theorem reads_parse_step {property : Property} {type : StructuredType} {cast : Option StructuredType}
    (hfound : schema.property? owner property.name = some property)
    (htype : property.complexType? = some type)
    (hcast : ∀ narrowed ∈ cast, type.CastsTo schema Word.IsToken narrowed) :
    Reads (parse schema owner) depth (words { member := .property property, cast } ++ [.slash])
      (fun word => word.kind ≠ .qualifiedName) True
      fun result => (∃ next, result.2 = some next ∧ next = cast.getD type) ∧
        result.1 = { member := .property property, cast } := by
  cases cast with
  | none =>
    apply (reads_parse_property hfound (reads_parseProperty_plain htype)).imp
    rintro _ rfl
    exact ⟨⟨type, rfl, rfl⟩, rfl⟩
  | some cast =>
    refine (reads_parse_property hfound (reads_parseProperty_step htype (hcast cast rfl))).mono
      (fun _ _ => trivial) Iff.rfl ?_
    rintro _ rfl
    exact ⟨⟨cast, rfl, rfl⟩, rfl⟩

/-- A path is read step by step, by induction on how it resolves. -/
theorem PathResolves.reads_path {path : List SelectSegment}
    (hpath : PathResolves schema Word.IsToken owner path)
    (hfollow : ∀ word, follow word → word.kind ≠ .slash) :
    Reads (unfold (parse schema) owner) depth (Word.joined .slash (path.map words)) follow True
      (· = path) := by
  apply Reads.unfold path.length (by simpa using length_le_joined .slash (path.map words))
  induction hpath with
  | property hfound hword =>
    intro rounds hrounds
    obtain ⟨rounds, rfl⟩ := Nat.exists_eq_add_of_le' hrounds
    exact reads_last (reads_parse_property hfound (reads_parseProperty_last hfollow)) rounds
  | narrowed hfound hword htype hcast =>
    intro rounds hrounds
    obtain ⟨rounds, rfl⟩ := Nat.exists_eq_add_of_le' hrounds
    exact reads_last (reads_parse_property hfound (reads_parseProperty_narrowed htype hcast hfollow))
      rounds
  | navigation hfree hfound hword =>
    intro rounds hrounds
    obtain ⟨rounds, rfl⟩ := Nat.exists_eq_add_of_le' hrounds
    exact reads_last (reads_parse_navigation hfree hfound hfollow) rounds
  | @step owner type property cast path hfound hword htype hcast hrest ih =>
    intro rounds hrounds
    obtain ⟨rounds, rfl⟩ := Nat.exists_eq_add_of_le' hrounds
    obtain ⟨name, more, hwords⟩ := hrest.exists_words
    have hne : path.map words ≠ [] := by
      intro hnil
      rw [hnil] at hwords
      cases hwords
    have hahead : Ahead (Word.joined .slash (path.map words)) follow
        fun word => word.kind ≠ .qualifiedName := by
      rw [hwords]
      exact (by decide : TokenKind.identifier ≠ .qualifiedName)
    rw [List.map_cons, Word.joined_cons .slash _ hne]
    refine (reads_unfoldUpTo_more (R := (· = { member := .property property, cast }))
      (reads_parse_step hfound htype hcast) hahead ?_).congr_fits (iff_of_eq (true_and True).symm)
    rintro _ _ rfl rfl
    apply (ih (rounds + path.length) (Nat.le_add_left _ _)).imp
    rintro _ rfl
    rfl

end SelectSegment

/-! ## Items -/

namespace SelectItem

variable {schema : Schema} {owner : StructuredType} {depth : Nat}

def words : SelectItem → List Word
  | .star => [.star]
  | .path none segments => Word.joined .slash (segments.map SelectSegment.words)
  | .path (some cast) segments =>
    cast.word :: .slash :: Word.joined .slash (segments.map SelectSegment.words)

theorem writes {item : SelectItem} (hitem : item.Valid schema Word.IsToken owner) :
    Writes item.print item.words := by
  match item, hitem with
  | .star, _ => exact opens_star.writes
  | .path none segments, hitem =>
    exact writes_intercalate .slash delimits_slash opens_slash
      (forall₂_writes hitem.2.writes)
  | .path (some cast) segments, hitem =>
    have hpath := writes_intercalate .slash delimits_slash opens_slash
      (forall₂_writes hitem.2.writes)
    exact ((hitem.1 cast rfl).writes.append_opens delimits_slash opens_slash).append_writes hpath

theorem reads_parse {item : SelectItem} (hitem : item.Valid schema Word.IsToken owner) :
    Reads (parse schema owner) depth item.words Word.EndsItem True (· = item) := by
  have hfollow : ∀ word : Word, word.EndsItem → word.kind ≠ .slash :=
    fun word hword => hword.kind_ne _ (by decide)
  match item, hitem with
  | .star, _ => exact reads_accept rfl (reads_pure trivial rfl)
  | .path none segments, hitem =>
    have hpath : SelectSegment.PathResolves schema Word.IsToken owner segments := hitem.2
    obtain ⟨name, more, hwords⟩ := hpath.exists_words
    have hread : Reads (unfold (SelectSegment.parse schema) owner) depth _ _ True _ :=
      hpath.reads_path hfollow
    change Reads _ depth (Word.joined .slash (segments.map SelectSegment.words)) _ _ _
    apply declines_accept (by rw [hwords]; rfl)
    change Reads _ depth ([] ++ _) _ _ _
    refine (StructuredType.declines_parseCast? fun word hword => hword).bind_sure ?_ ?_
    · rw [hwords]
      exact (by decide : TokenKind.identifier ≠ .qualifiedName)
    · rintro _ rfl
      exact hread.map fun path h => congrArg _ h
  | .path (some cast) segments, hitem =>
    have hpath : SelectSegment.PathResolves schema Word.IsToken cast segments := hitem.2
    have hread : Reads (unfold (SelectSegment.parse schema) cast) depth _ _ True _ :=
      hpath.reads_path hfollow
    refine declines_accept rfl ?_
    change Reads _ depth ([cast.word] ++ .slash :: _) _ _ _
    apply (hitem.1 cast rfl).reads.bind_sure (ahead_true _ _)
    rintro _ rfl
    apply reads_expect rfl
    intro _ _
    exact hread.map fun path h => congrArg _ h

end SelectItem

namespace Select

variable {schema : Schema} {owner : StructuredType} {select : Select} {depth : Nat}

def words (select : Select) : List Word := Word.joined .comma (select.map SelectItem.words)

theorem writes (hselect : Select.Valid schema Word.IsToken owner select) :
    Writes (print select) (words select) :=
  writes_intercalate .comma delimits_comma opens_comma <| forall₂_writes fun item hmem =>
    SelectItem.writes (hselect.2 item hmem)

theorem reads_parse (hselect : Select.Valid schema Word.IsToken owner select) :
    Reads (parse schema owner) depth (words select) Word.EndsValue True (· = select) := by
  refine (Reads.separated_self .comma rfl (fun word hword => ?_) hselect.1
    fun item hmem => SelectItem.reads_parse (hselect.2 item hmem)).congr_fits (by simp)
  exact Word.isA_eq_false rfl (hword.kind_ne _ (by decide))

end Select

end ODataOptions
