import ODataOptions.Proofs.Expand.Validity
import ODataOptions.Proofs.Parser.Progress

/-!
# Parsed expansions are valid

The parser narrows the running type as it goes along a path.  Each rule of the grammar yields what is
valid from the type that it begins at.
-/

namespace ODataOptions

open ODataOptions.Parser

theorem StructuredType.forward_parseCast? (schema : Schema) (owner : StructuredType) :
    Forward (owner.parseCast? schema) := by
  apply (forward_takeIf _).bind
  intro token?
  cases token? with
  | none => exact forward_pure none
  | some token =>
    simp only
    split
    · exact forward_throw _
    · split
      · exact forward_pure _
      · exact forward_throw _

namespace PathSegment

variable {schema : Schema} {words : Vocabulary}

/-! ## Complex properties -/

theorem complexProperty?_of_kind_ne {owner : StructuredType} {token : Token}
    (hkind : token.kind ≠ .identifier) : complexProperty? schema owner token = none := by
  change (if token.kind = .identifier then some () else none).bind _ = none
  rw [if_neg hkind]
  rfl

theorem complexProperty?_of_identifier {owner : StructuredType} {token : Token}
    (hkind : token.kind = .identifier) :
    complexProperty? schema owner token = (schema.property? owner token.text).bind fun property =>
      property.complexType?.bind fun type => some (property, type) := by
  rw [complexProperty?, hkind]
  rfl

theorem complexProperty?_eq_some {owner type : StructuredType} {token : Token} {property : Property}
    (hfound : complexProperty? schema owner token = some (property, type)) :
    token.kind = .identifier ∧ schema.property? owner token.text = some property ∧
      property.complexType? = some type := by
  have hkind : token.kind = .identifier := by
    apply Classical.byContradiction
    intro hkind
    rw [complexProperty?_of_kind_ne hkind] at hfound
    cases hfound
  rw [complexProperty?_of_identifier hkind] at hfound
  obtain ⟨found, hproperty, hfound⟩ := Option.bind_eq_some_iff.mp hfound
  obtain ⟨foundType, htype, hresult⟩ := Option.bind_eq_some_iff.mp hfound
  cases hresult
  exact ⟨hkind, hproperty, htype⟩

variable {path next : Progress} {cursor rest : Cursor}

theorem parseComplex?_run (cursor : Cursor) :
    parseComplex? schema path cursor =
      match complexProperty? schema path.owner cursor.current with
      | none => .ok none cursor
      | some (property, type) =>
        (do
          let _ ← expect .slash
          let cast ← type.parseCast? schema
          if cast.isSome then
            let _ ← expect .slash
          return some ⟨path.segments ++ [.complex property cast], cast.getD type⟩ :
          Parser (Option Progress)) cursor.advance := by
  rw [parseComplex?, bind_run, current_run]
  dsimp only
  cases complexProperty? schema path.owner cursor.current with
  | none => rfl
  | some found =>
    change ((Parser.next >>= _) : Parser _) _ = _
    rw [bind_run, next_run]

/-- A step through a complex property extends the path by that property, and the path comes to its
type or to the one that it is narrowed to. -/
theorem parseComplex?_some (hover : cursor.Over words)
    (hrun : parseComplex? schema path cursor = .ok (some next) rest) :
    rest.Over words ∧ rest.ahead.length < cursor.ahead.length ∧
      ∃ step, next.segments = path.segments ++ [step] ∧
        Passes schema words path.owner [step] next.owner := by
  rw [parseComplex?_run] at hrun
  split at hrun
  · cases hrun
  · next property type hfound =>
    obtain ⟨hkind, hproperty, htype⟩ := complexProperty?_eq_some hfound
    have hend : cursor.current.kind ≠ .endOfInput := by rw [hkind]; decide
    have hword := hover.current hend
    have hname := Schema.name_of_property? hproperty
    rw [Token.word, hkind, ← hname] at hword
    rw [← hname] at hproperty
    obtain ⟨_, second, hslash, hrun⟩ := bind_eq_ok_iff.mp hrun
    obtain ⟨cast, third, hcast, hrun⟩ := bind_eq_ok_iff.mp hrun
    obtain ⟨-, hsecond⟩ := yields_expect (by decide) hover.advance hslash
    obtain ⟨hnarrowed, hthird⟩ := type.yields_parseCast? hsecond hcast
    have hless : third.ahead.length < cursor.ahead.length :=
      calc third.ahead.length
          ≤ second.ahead.length := type.forward_parseCast? schema hcast
        _ ≤ cursor.advance.ahead.length := forward_expect _ hslash
        _ < cursor.ahead.length := Cursor.ahead_advance_lt hend
    have hstep := Passes.cons hproperty hword htype hnarrowed (.nil _)
    cases cast with
    | none =>
      cases hrun
      exact ⟨hthird, hless, _, rfl, hstep⟩
    | some narrowed =>
      obtain ⟨_, fourth, hslash', hrun⟩ := bind_eq_ok_iff.mp hrun
      cases hrun
      obtain ⟨-, hfourth⟩ := yields_expect (by decide) hthird hslash'
      exact ⟨hfourth, Nat.lt_of_le_of_lt (forward_expect _ hslash') hless, _, rfl, hstep⟩

/-- A path goes no further where the current token names no complex property. -/
theorem parseComplex?_none (hrun : parseComplex? schema path cursor = .ok none rest) :
    rest = cursor ∧ complexProperty? schema path.owner cursor.current = none := by
  rw [parseComplex?_run] at hrun
  split at hrun
  · next hfound =>
    cases hrun
    exact ⟨rfl, hfound⟩
  · obtain ⟨_, _, -, hrun⟩ := bind_eq_ok_iff.mp hrun
    obtain ⟨cast, _, -, hrun⟩ := bind_eq_ok_iff.mp hrun
    cases cast with
    | none => cases hrun
    | some narrowed =>
      obtain ⟨_, _, -, hrun⟩ := bind_eq_ok_iff.mp hrun
      cases hrun

/-- The complex properties that a path goes through, up to a token that names none. -/
theorem iterate_parseComplex? {owner : StructuredType} (hover : cursor.Over words)
    (hrun : iterate (parseComplex? schema) { owner } cursor = .ok path rest) :
    rest.Over words ∧ Passes schema words owner path.segments path.owner ∧
      (path.segments = [] → rest = cursor) ∧
      complexProperty? schema path.owner rest.current = none := by
  have hstep : ∀ {path : Progress} {before next after},
      (before.Over words ∧ Passes schema words owner path.segments path.owner ∧
        (path.segments = [] → before = cursor)) →
      parseComplex? schema path before = .ok (some next) after →
        after.Over words ∧ Passes schema words owner next.segments next.owner ∧
          (next.segments = [] → after = cursor) := by
    intro path before next after hbefore hnext
    obtain ⟨hafter, -, segment, hsegments, hpath⟩ := parseComplex?_some hbefore.1 hnext
    rw [hsegments]
    exact ⟨hafter, hbefore.2.1.append hpath, fun hnil => absurd hnil (by simp)⟩
  obtain ⟨before, ⟨hbefore, hpasses, hfirst⟩, hdeclined⟩ := iterate_declines
    (fun hnext => (parseComplex?_some (Cursor.over_univ _) hnext).2.1) hstep
    ⟨hover, .nil owner, fun _ => rfl⟩ hrun
  obtain ⟨rfl, hplain⟩ := parseComplex?_none hdeclined
  exact ⟨hbefore, hpasses, hfirst, hplain⟩

/-! ## Ends of paths -/

theorem complexType?_eq_none {owner : StructuredType} {token : Token}
    (hkind : token.kind = .identifier) (hplain : complexProperty? schema owner token = none)
    {property : Property} (hproperty : schema.property? owner token.text = some property) :
    property.complexType? = none := by
  cases htype : property.complexType? with
  | none => rfl
  | some type =>
    simp [complexProperty?_of_identifier hkind, hproperty, htype] at hplain

/-- A cast is put where it belongs by whether the navigation property leads to a collection. -/
theorem Passes.arrives_narrowed {owner : StructuredType} {target : Navigation}
    {cast : Option StructuredType} (hpath : Passes schema words owner path.segments path.owner)
    (hplain : ∀ property, schema.property? path.owner target.name = some property →
      property.complexType? = none)
    (hfound : schema.navigation? path.owner target.name = some target)
    (hword : words ⟨.identifier, target.name⟩)
    (hcast : ∀ narrowed ∈ cast, target.targetType.CastsTo schema words narrowed) :
    Arrives schema words owner (path.segments ++ [narrowed target cast]) false
      (cast.getD target.targetType) := by
  rw [narrowed]
  split
  · next hcollection =>
    exact .navigation hpath hplain hfound hword (by simp) (fun _ => hcollection) hcast
  · next hsingle =>
    have hor : (cast <|> none) = cast := by cases cast <;> rfl
    rw [← hor] at hcast
    have harrives : Arrives schema words owner
        (path.segments ++ [.navigation target cast none]) false
        ((cast <|> none).getD target.targetType) :=
      .navigation hpath hplain hfound hword (fun _ => by simpa using hsingle) (by simp) hcast
    rw [hor] at harrives
    exact harrives

/-- A navigation property is narrowed only to a type derived from its target. -/
theorem yields_parseNavigation {owner : StructuredType} {token : Token}
    (hpath : Passes schema words owner path.segments path.owner)
    (hplain : complexProperty? schema path.owner token = none)
    (hkind : token.kind = .identifier) (hword : words token.word) :
    Yields words (parseNavigation schema path token) fun target =>
      Arrives schema words owner target.segments target.star target.type ∧
        target.star = false := by
  rw [parseNavigation]
  cases hfound : schema.navigation? path.owner token.text with
  | none => exact yields_throw _
  | some target =>
    have hname := Schema.name_of_navigation? hfound
    have hfree : ∀ property, schema.property? path.owner token.text = some property →
        property.complexType? = none :=
      fun _ => complexType?_eq_none hkind hplain
    rw [Token.word, hkind, ← hname] at hword
    rw [← hname] at hfound hfree
    apply (yields_accept .slash).bind
    intro slash _
    have hreturn : ∀ cast : Option StructuredType,
        (∀ narrowed ∈ cast, target.targetType.CastsTo schema words narrowed) →
          Arrives schema words owner (path.segments ++ [narrowed target cast]) false
            (cast.getD target.targetType) :=
      fun cast hcast => hpath.arrives_narrowed hfree hfound hword hcast
    cases slash with
    | false => exact .pure ⟨hreturn none (by simp), rfl⟩
    | true => exact target.targetType.yields_parseCast?.map fun cast hcast => ⟨hreturn cast hcast, rfl⟩

/-- A path resolves from the type that it begins at.  It is a star alone only if it begins with
one. -/
theorem parsePath_sound {owner : StructuredType} {target : Target} (hover : cursor.Over words)
    (hrun : PathSegment.parsePath schema owner cursor = .ok target rest) :
    (Arrives schema words owner target.segments target.star target.type ∧
      (target.star = true → target.segments = [] → cursor.current.isA .star = true)) ∧
      rest.Over words := by
  obtain ⟨path, middle, hpath, hend⟩ := bind_eq_ok_iff.mp hrun
  obtain ⟨hmiddle, hpasses, hfirst, hplain⟩ := iterate_parseComplex? hover hpath
  obtain ⟨token?, after, htoken, hend⟩ := bind_eq_ok_iff.mp hend
  rw [take?, takeIf_run] at htoken
  split at htoken
  · next hisA =>
    cases htoken
    have hkind : middle.current.kind = .identifier := (Token.isA_iff_kind_eq rfl).mp hisA
    have hword := hmiddle.current (by rw [hkind]; decide)
    obtain ⟨⟨harrives, hstar⟩, hrest⟩ :=
      yields_parseNavigation hpasses hplain hkind hword hmiddle.advance hend
    exact ⟨⟨harrives, fun htrue => absurd (hstar.symm.trans htrue) (by simp)⟩, hrest⟩
  · cases htoken
    obtain ⟨star, last, hstar, hend⟩ := bind_eq_ok_iff.mp hend
    rw [accept_run] at hstar
    split at hstar
    · next hisA =>
      cases hstar
      cases hend
      exact ⟨⟨.star hpasses, fun _ hnil => hfirst hnil ▸ hisA⟩, hmiddle.advance⟩
    · cases hstar
      cases hend

/-- The suffix of a path determines the context of the options behind it. -/
theorem yields_parseSuffix (slash : Bool) :
    Yields words (parseSuffix slash) fun result => result.1 = result.2.suffix := by
  have hbehind : ∀ taken : Bool, Yields words
      (do
        if taken then
          if ← accept .ref then return ([.ref], .references)
          else if ← accept (.option .count) then return ([.count], .counting)
          else unexpected "$ref or $count"
        else return ([], .plain) : Parser (List PathSegment × OptionContext))
      fun result => result.1 = result.2.suffix := by
    intro taken
    split
    · apply (yields_accept .ref).bind
      intro ref _
      split
      · exact .pure rfl
      · apply (yields_accept (.option .count)).bind
        intro count _
        split
        · exact .pure rfl
        · exact yields_unexpected _
    · exact .pure rfl
  cases slash with
  | true => exact hbehind true
  | false => exact (yields_accept .slash).bind fun taken _ => hbehind taken

end PathSegment

/-! ## Items and expansions -/

section

variable {scope : Scope} {words : Vocabulary} {nested : StructuredType → Expand → Prop}
  {expansion : StructuredType → Parser Expand} {owner : StructuredType} {cursor rest : Cursor}

namespace ExpandItem

theorem yields_parseStar :
    Yields words parseStar fun item => item.Valid scope words nested owner := by
  apply (yields_accept .slash).bind
  intro slash _
  split
  · exact (yields_expect (by decide)).map fun _ _ => .star (fun _ => rfl) (by simp)
  · apply (yields_accept .openParen).bind
    intro opened _
    split
    · apply (yields_expect (by decide)).bind
      intro _ _
      apply (yields_expect (by decide)).bind
      intro _ _
      apply Levels.yields_parse.bind
      intro levels hlevels
      apply (yields_expect (by decide)).map
      intro _ _
      refine .star (by simp) ?_
      intro count hcount
      obtain rfl := Option.mem_some.mp hcount
      exact hlevels
    · exact .pure (.star (by simp) (by simp))

/-- The options behind a path are valid for the type that it arrives at. -/
theorem parsePath_sound (hexpansion : ∀ owner, Yields words (expansion owner) (nested owner))
    (cast : Option StructuredType) {item : ExpandItem} (hover : cursor.Over words)
    (hcast : ∀ narrowed ∈ cast, owner.CastsTo scope.schema words narrowed)
    (hstar : cast = none → cursor.current.isA .star = false)
    (hrun : parsePath scope expansion cast (cast.getD owner) cursor = .ok item rest) :
    item.Valid scope words nested owner ∧ rest.Over words := by
  obtain ⟨target, first, htarget, hrun⟩ := bind_eq_ok_iff.mp hrun
  obtain ⟨⟨harrives, halone⟩, hfirst⟩ := PathSegment.parsePath_sound hover htarget
  obtain ⟨⟨suffix, context⟩, second, hsuffix, hrun⟩ := bind_eq_ok_iff.mp hrun
  obtain ⟨hcontext, hsecond⟩ := PathSegment.yields_parseSuffix target.slash hfirst hsuffix
  obtain ⟨options, third, hoptions, hrun⟩ := bind_eq_ok_iff.mp hrun
  obtain ⟨hvalid, hthird⟩ := OptionSet.yields_parse
    (SystemOption.yields_parseValue hexpansion target.type) context hsecond hoptions
  cases hrun
  refine ⟨?_, hthird⟩
  rw [show suffix = context.suffix from hcontext]
  refine .path hcast harrives (fun hstarred => ?_) hvalid
  cases cast with
  | some narrowed => exact .inl (by simp)
  | none =>
    refine .inr ?_
    intro hnil
    have hbegins := halone hstarred hnil
    rw [hstar rfl] at hbegins
    cases hbegins

theorem yields_parse (hexpansion : ∀ owner, Yields words (expansion owner) (nested owner)) :
    Yields words (parse scope expansion owner) fun item => item.Valid scope words nested owner := by
  intro cursor item rest hover hrun
  obtain ⟨star, first, hstar, hrun⟩ := bind_eq_ok_iff.mp hrun
  rw [accept_run] at hstar
  split at hstar
  · cases hstar
    exact yields_parseStar hover.advance hrun
  · next hplain =>
    cases hstar
    obtain ⟨cast?, second, hcast, hrun⟩ := bind_eq_ok_iff.mp hrun
    obtain ⟨hcasts, hsecond⟩ := owner.yields_parseCast? hover hcast
    cases cast? with
    | none =>
      rw [StructuredType.eq_of_parseCast?_none hcast] at hrun
      exact parsePath_sound hexpansion none hover hcasts
        (fun _ => by simpa using hplain) hrun
    | some cast =>
      obtain ⟨_, third, hslash, hrun⟩ := bind_eq_ok_iff.mp hrun
      obtain ⟨-, hthird⟩ := yields_expect (by decide) hsecond hslash
      exact parsePath_sound hexpansion (some cast) hthird hcasts (by simp) hrun

end ExpandItem

/-- What is parsed is valid at every level, by induction on the levels that are left. -/
theorem Expand.yields_parseWithin (scope : Scope) (words : Vocabulary) (levels : Nat)
    (owner : StructuredType) :
    Yields words (parseWithin scope levels owner) (ValidWithin scope words levels owner) := by
  induction levels generalizing owner with
  | zero => exact yields_failHere _
  | succ levels ih => exact (ExpandItem.yields_parse ih).separated .comma

end

/-- Whatever the tokens, an expansion that is parsed from them is valid at every level, it has no more
levels than are allowed, and its names and literal texts are words among the tokens. -/
theorem Expand.validWithin_of_parse (scope : Scope) (owner : StructuredType) (cursor : Cursor)
    (expand : Expand) (rest : Cursor) (hrun : Expand.parse scope owner cursor = .ok expand rest) :
    expand.ValidWithin scope (fun word => ∃ token ∈ cursor.ahead, token.word = word)
      scope.limits.expandDepth owner := by
  refine (yields_parseWithin scope _ _ owner ?_ hrun).1
  exact fun token hmem _ => ⟨token, hmem, rfl⟩

theorem Expand.validWithin_of_parse_shop :
    ∃ expand : Expand, expand.length = 2 ∧
      expand.ValidWithin { schema := .shop } (fun word => ∃ token ∈
        tokens "Orders/Shop.UrgentOrder($expand=Customer;$filter=Total gt 2),Address/Region/$ref",
        token.word = word) 16 .shopCustomer := by
  refine ⟨_, ?_, Expand.validWithin_of_parse { schema := .shop } .shopCustomer
    (.ofTokens (tokens
      "Orders/Shop.UrgentOrder($expand=Customer;$filter=Total gt 2),Address/Region/$ref"))
    _ _ rfl⟩
  rfl

end ODataOptions
