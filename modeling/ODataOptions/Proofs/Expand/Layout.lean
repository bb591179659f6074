import ODataOptions.Proofs.Expand.Places
import ODataOptions.Proofs.Expand.Tracks
import ODataOptions.Proofs.Token.Layout

/-!
# Layout does not matter

An expansion is read alike however its text is laid out.  No parser decides on the place of a token, on
what stands directly beside it, or on how a keyword is spelled, so even a fault is the same one, at the
same tokens.
-/

namespace ODataOptions

open ODataOptions.Parser

/-- The span reaches from one of the tokens of the text to another one, both told by their numbers. -/
def Span.Joins (source : String) (first last : Nat) (span : Span) : Prop :=
  ∃ token token', (tokens source)[first]? = some token ∧ (tokens source)[last]? = some token' ∧
    span = .cover token.span token'.span

/-- The two spans reach over the same tokens of two texts. -/
def Span.SameTokens (source source' : String) (span span' : Span) : Prop :=
  ∃ first last, span.Joins source first last ∧ span'.Joins source' first last

variable {source source' : String}

/-- The tokens of two texts are the same words, but for the case of keywords. -/
def SameWords (source source' : String) : Prop :=
  List.Forall₂ (fun token token' => token.word.Respells token'.word) (tokens source)
    (tokens source')

namespace SameWords

theorem respells (hwords : SameWords source source') {index : Nat} {token token' : Token}
    (htoken : (tokens source)[index]? = some token)
    (htoken' : (tokens source')[index]? = some token') : token.word.Respells token'.word := by
  obtain ⟨hindex, rfl⟩ := List.getElem?_eq_some_iff.mp htoken
  obtain ⟨hindex', rfl⟩ := List.getElem?_eq_some_iff.mp htoken'
  exact List.Forall₂.get hwords hindex hindex'

/-- Both runs are over the same tokens, at the places that these have in two texts. -/
def comparison (hwords : SameWords source source') (scope : Scope) : ScopedComparison where
  strict := True
  Tokens token token' :=
    ∃ index, (tokens source)[index]? = some token ∧ (tokens source')[index]? = some token'
  Places := Span.SameTokens source source'
  span := by
    rintro token token' ⟨index, htoken, htoken'⟩
    exact ⟨index, index, ⟨token, token, htoken, htoken, rfl⟩, token', token', htoken', htoken', rfl⟩
  cover := by
    rintro _ _ _ _ ⟨first, _, ⟨start, _, hstart, _, rfl⟩, start', _, hstart', _, rfl⟩
      ⟨_, last, ⟨_, stop, _, hstop, rfl⟩, _, stop', _, hstop', rfl⟩
    exact ⟨first, last, ⟨start, stop, hstart, hstop, rfl⟩, start', stop', hstart', hstop', rfl⟩
  endOfInput_iff := by
    rintro token token' ⟨index, htoken, htoken'⟩
    have hkind : token.kind = token'.kind := (hwords.respells htoken htoken').kind
    rw [hkind]
  scope := scope
  aliases' := scope.aliases
  inlining := ∅
  gradual := False
  respells := by
    rintro token token' ⟨index, htoken, htoken'⟩
    rw [Inlining.apply_empty]
    exact hwords.respells htoken htoken'
  parameterType := scope.parameterType_kept False
  strict_inlining _ := nofun
  strict_gradual _ := id

/-- At the start of both texts, the cursors correspond. -/
theorem comparison_cursors (hwords : SameWords source source') (scope : Scope) :
    (hwords.comparison scope).Cursors (.ofTokens (tokens source)) (.ofTokens (tokens source')) := by
  have hlength : (tokens source).length = (tokens source').length := hwords.length_eq
  have hstop : ∀ source : String, (Cursor.ofTokens (tokens source)).stop = source.utf8ByteSize := by
    intro source
    rw [Cursor.stop, Cursor.ofTokens, Cursor.getLast?_tokens]
    rfl
  refine ⟨.nil, ?_, ?_, rfl⟩
  · refine List.forall₂_iff_get.mpr ⟨hlength, fun index hindex hindex' => ?_⟩
    exact ⟨index, List.getElem?_eq_getElem hindex, List.getElem?_eq_getElem hindex'⟩
  -- both texts end with the last one of as many tokens
  · rw [hstop, hstop]
    refine ⟨(tokens source).length - 1, ?_, ?_⟩
    · rw [← List.getLast?_eq_getElem?, Cursor.getLast?_tokens]
    · rw [hlength, ← List.getLast?_eq_getElem?, Cursor.getLast?_tokens]

end SameWords

/-- The same fault at the same tokens of two texts.  If it has a second place, that is at the same tokens
too. -/
structure Fault.SameTokens (source source' : String) (fault fault' : Fault) : Prop where
  key : fault.key = fault'.key
  span : fault.span.SameTokens source source' fault'.span
  related : Option.Rel (fun first first' => Span.SameTokens source source' first.1 first'.1)
    fault.related fault'.related

/-- Blanks between tokens and the case of keywords do not matter.  A text without faults that is laid out
anew has tokens of the same kinds, and is read as the same tree, or else with the same fault at the same
tokens. -/
theorem Expand.read_relaid (schema : Schema) (owner : StructuredType)
    (hfaultless : invalidParts source = []) (hrelaid : Relaid source source') :
    (invalidParts source' = [] ∧
        (tokens source').map Token.kind = (tokens source).map Token.kind) ∧
      (∀ expand, Expand.read schema owner source = .ok expand ↔
        Expand.read schema owner source' = .ok expand) ∧
      ∀ fault, Expand.read schema owner source = .error fault →
        ∃ fault', Expand.read schema owner source' = .error fault' ∧
          fault.SameTokens source source' fault' := by
  obtain ⟨hfaultless', hwords⟩ := hrelaid.tokens hfaultless
  have hread : ∀ {source : String}, invalidParts source = [] → Expand.read schema owner source =
      (complete .expand (Expand.parse { schema } owner)).onTokens (tokens source) := by
    intro source hfaultless
    rw [Expand.read, onText, tokensOrFault_of_invalidParts hfaultless]
    rfl
  have hresults := ((ScopedComparison.tracks_parseExpand (fun _ => rfl) owner).complete .expand).onTokens
    (SameWords.comparison_cursors hwords { schema })
  rw [hread hfaultless, hread hfaultless']
  refine ⟨⟨hfaultless', ?_⟩, fun expand => hresults.eq_ok_iff trivial expand, fun fault hfault => ?_⟩
  · rw [← List.forall₂_eq_eq_eq, List.forall₂_map_left_iff, List.forall₂_map_right_iff]
    exact hwords.flip.imp fun _ _ hrespells => hrespells.kind.symm
  · obtain ⟨fault', hfault', hsame⟩ := hresults.exists_error trivial hfault
    exact ⟨fault', hfault', hsame.key, hsame.span, hsame.related⟩

/-- A reference on several lines, with its keyword in upper case, and a parenthesis too many. -/
theorem Expand.read_relaid_shop :
    (Relaid "Orders/$ref" "Orders\t/\n$REF " ∧
      ∃ expand, Expand.read .shop .shopCustomer "Orders/$ref" = .ok expand ∧
        Expand.read .shop .shopCustomer "Orders\t/\n$REF " = .ok expand) ∧
    Relaid "Orders/$ref)" "Orders\t/\n$REF )\r" ∧
    ∃ fault fault', Expand.read .shop .shopCustomer "Orders/$ref)" = .error fault ∧
      Expand.read .shop .shopCustomer "Orders\t/\n$REF )\r" = .error fault' ∧
      fault.key = .trailingTokens ∧
      fault.SameTokens "Orders/$ref)" "Orders\t/\n$REF )\r" fault' := by
  have hbefore : ∀ {word : Word} {written : String} {blank : Char} {text : List Char}
      {words : List Word}, word.Respells ⟨word.kind, written⟩ → isBlank blank = true →
      LaidOut text words → LaidOut (written.toList ++ blank :: text) (word :: words) :=
    fun hspelled hblank htext => .word hspelled (by simpa using hblank) (.blank hblank htext)
  have hpath : ∀ {text : List Char} {words : List Word}, LaidOut text words →
      LaidOut ("Orders".toList ++ '\t' :: ("/".toList ++ '\n' :: ("$REF".toList ++ ' ' :: text)))
        (⟨.identifier, "Orders"⟩ :: ⟨.slash, "/"⟩ :: ⟨.ref, "$ref"⟩ :: words) :=
    fun htext => hbefore (.refl _) rfl <| hbefore (.refl _) rfl <|
      hbefore ⟨rfl, .inr ⟨rfl, by decide⟩⟩ rfl htext
  have hrelaid : Relaid "Orders/$ref" "Orders\t/\n$REF " := hpath .nil
  have hparen : LaidOut (")".toList ++ '\r' :: []) [⟨.closeParen, ")"⟩] :=
    hbefore (.refl _) rfl .nil
  have hrelaid' : Relaid "Orders/$ref)" "Orders\t/\n$REF )\r" := hpath hparen
  obtain ⟨expand, hread⟩ : ∃ expand, Expand.read .shop .shopCustomer "Orders/$ref" = .ok expand :=
    ⟨_, rfl⟩
  obtain ⟨fault, hfails, hkey⟩ : ∃ fault,
      Expand.read .shop .shopCustomer "Orders/$ref)" = .error fault ∧ fault.key = .trailingTokens :=
    ⟨_, rfl, rfl⟩
  obtain ⟨-, hsame, -⟩ := Expand.read_relaid .shop .shopCustomer (by decide +kernel) hrelaid
  obtain ⟨-, -, hfault⟩ := Expand.read_relaid .shop .shopCustomer (by decide +kernel) hrelaid'
  obtain ⟨fault', hfails', htokens⟩ := hfault fault hfails
  exact ⟨⟨hrelaid, expand, hread, (hsame expand).mp hread⟩,
    hrelaid', fault, fault', hfails, hfails', hkey, htokens⟩

end ODataOptions
