import ODataOptions.Proofs.Parser.Runs
import ODataOptions.Proofs.Token.Word

/-!
# What parsers yield

`Parser.Yields words parser P` says that every value of the parser satisfies `P`, whenever the tokens
ahead are of the vocabulary `words`.  There is one rule for each way to build a parser, so a grammar
is followed rule by rule.  A loop takes an invariant of its state.
-/

namespace ODataOptions.Parser

variable {α β σ : Type} {words : Vocabulary} {P Q : α → Prop}

/-- From tokens of the vocabulary, the parser yields values of the predicate only and leaves tokens of
the vocabulary. -/
def Yields (words : Vocabulary) (parser : Parser α) (P : α → Prop) : Prop :=
  ∀ ⦃cursor value rest⦄, cursor.Over words → parser cursor = .ok value rest →
    P value ∧ rest.Over words

/-! ## Sequencing -/

theorem Yields.mono {parser : Parser α} (hparser : Yields words parser P)
    (himp : ∀ value, P value → Q value) : Yields words parser Q := by
  intro cursor value rest hover hrun
  obtain ⟨hvalue, hrest⟩ := hparser hover hrun
  exact ⟨himp value hvalue, hrest⟩

theorem Yields.pure {value : α} (hvalue : P value) : Yields words (pure value) P := by
  intro cursor _ _ hover hrun
  cases hrun
  exact ⟨hvalue, hover⟩

/-- The second part may rely on what the first one yields. -/
theorem Yields.bind {P : β → Prop} {parser : Parser β} {next : β → Parser α}
    (hparser : Yields words parser P) (hnext : ∀ value, P value → Yields words (next value) Q) :
    Yields words (parser >>= next) Q := by
  intro cursor value rest hover hrun
  obtain ⟨first, middle, hfirst, hsecond⟩ := bind_eq_ok_iff.mp hrun
  obtain ⟨hvalue, hmiddle⟩ := hparser hover hfirst
  exact hnext first hvalue hmiddle hsecond

/-- What a value is made into by a function on success. -/
theorem Yields.map {P : β → Prop} {parser : Parser β} {f : β → α}
    (hparser : Yields words parser P) (hf : ∀ value, P value → Q (f value)) :
    Yields words (parser >>= fun value => Pure.pure (f value)) Q := by
  apply hparser.bind
  intro value hvalue
  exact .pure (hf value hvalue)

theorem yields_throw (fault : Fault) : Yields words (throw fault) P := by
  intro cursor value rest hover hrun
  cases hrun

theorem yields_failHere (problem : Problem) : Yields words (failHere problem) P := by
  intro cursor value rest hover hrun
  cases hrun

theorem yields_unexpected (expected : String) : Yields words (unexpected expected) P := by
  intro cursor value rest hover hrun
  cases hrun

theorem yields_ofExcept {result : Except Fault α} (hresult : ∀ value, result = .ok value → P value) :
    Yields words (ofExcept result) P := by
  intro cursor value rest hover hrun
  rw [ofExcept_run] at hrun
  split at hrun
  · next found =>
    cases hrun
    exact ⟨hresult value rfl, hover⟩
  · cases hrun

theorem yields_any (parser : Parser α) : Yields (fun _ => True) parser fun _ => True :=
  fun _ _ rest _ _ => ⟨trivial, rest.over_univ⟩

/-! ## Tokens -/

theorem yields_current :
    Yields words current fun token => token.kind ≠ .endOfInput → words token.word := by
  intro cursor value rest hover hrun
  cases hrun
  exact ⟨hover.current, hover⟩

theorem yields_takeIf (test : Token → Bool) :
    Yields words (takeIf test) fun token? => ∀ token ∈ token?,
      test token = true ∧ (token.kind ≠ .endOfInput → words token.word) := by
  intro cursor value rest hover hrun
  rw [takeIf_run] at hrun
  split at hrun
  · next htest =>
    cases hrun
    refine ⟨fun token hmem => ?_, hover.advance⟩
    obtain rfl := Option.mem_some.mp hmem
    exact ⟨htest, hover.current⟩
  · cases hrun
    exact ⟨by simp, hover⟩

theorem yields_take? {kind : TokenKind} (hkind : kind ≠ .endOfInput) :
    Yields words (take? kind) fun token? => ∀ token ∈ token?,
      token.isA kind = true ∧ words token.word :=
  (yields_takeIf _).mono fun _ htoken token hmem =>
    ⟨(htoken token hmem).1,
      (htoken token hmem).2 (Token.kind_ne_endOfInput_of_isA hkind (htoken token hmem).1)⟩

theorem yields_accept (kind : TokenKind) : Yields words (accept kind) fun _ => True :=
  (yields_takeIf _).map fun _ _ => trivial

theorem yields_acceptWord (word : String) : Yields words (acceptWord word) fun _ => True :=
  (yields_takeIf _).map fun _ _ => trivial

theorem yields_next : Yields words next fun _ => True := by
  apply yields_current.bind
  intro _ _
  apply (yields_takeIf _).map
  intro _ _
  exact trivial

theorem yields_expect {kind : TokenKind} (hkind : kind ≠ .endOfInput) :
    Yields words (expect kind) fun token => token.isA kind = true ∧ words token.word := by
  apply (yields_take? hkind).bind
  intro token? htoken
  cases token? with
  | none => exact yields_unexpected _
  | some token => exact .pure (htoken token rfl)

theorem yields_oneOfWords (word : β → String) (meanings : List β) :
    Yields words (oneOfWords word meanings) fun meaning? => ∀ meaning ∈ meaning?,
      meaning ∈ meanings := by
  induction meanings with
  | nil => exact .pure (by simp)
  | cons meaning meanings ih =>
    apply (yields_acceptWord _).bind
    intro found _
    cases found with
    | true => exact .pure (by simp)
    | false => exact ih.mono fun _ hmem other hother => List.mem_cons_of_mem _ (hmem other hother)

theorem Yields.nested {parser : Parser α} (hparser : Yields words parser P) (limit : Nat) :
    Yields words (nested limit parser) P := by
  intro cursor value rest hover hrun
  rw [Parser.nested] at hrun
  split at hrun
  · cases hrun
  · split at hrun
    · next found middle hfound =>
      cases hrun
      have hopened : Cursor.Over words { cursor with depth := cursor.depth + 1 } := hover
      obtain ⟨hvalue, hmiddle⟩ := hparser hopened hfound
      exact ⟨hvalue, hmiddle⟩
    · cases hrun

/-! ## Loops -/

section Loops

variable {I : σ → Prop}

theorem yields_iterateUpTo {step : σ → Parser (Option σ)}
    (hstep : ∀ state, I state → Yields words (step state) fun next? => ∀ next ∈ next?, I next)
    (rounds : Nat) {state : σ} (hstate : I state) : Yields words (iterateUpTo step rounds state) I := by
  induction rounds generalizing state with
  | zero => exact .pure hstate
  | succ rounds ih =>
    apply (hstep state hstate).bind
    intro next? hnext
    cases next? with
    | none => exact .pure hstate
    | some next => exact ih (hnext next rfl)

/-- What one round keeps, the loop keeps. -/
theorem yields_iterate {step : σ → Parser (Option σ)}
    (hstep : ∀ state, I state → Yields words (step state) fun next? => ∀ next ∈ next?, I next)
    {state : σ} (hstate : I state) : Yields words (iterate step state) I := by
  intro cursor value rest hover hrun
  exact yields_iterateUpTo hstep _ hstate hover hrun

theorem yields_separatedFrom {step : σ → Parser σ}
    (hstep : ∀ state, I state → Yields words (step state) I) (separator : TokenKind) {state : σ}
    (hstate : I state) : Yields words (separatedFrom step separator state) I := by
  apply (hstep state hstate).bind
  intro first hfirst
  refine yields_iterate ?_ hfirst
  intro state hstate
  apply (yields_accept separator).bind
  intro found _
  cases found with
  | false => exact .pure (by simp)
  | true =>
    apply (hstep state hstate).map
    intro next hnext other hother
    cases hother
    exact hnext

/-- If a step yields a value that makes a list behind its state, alone or before what the next state
makes, then so do the values of all steps, and there is at least one. -/
theorem yields_unfold {step : σ → Parser (α × Option σ)} {L : σ → List α → Prop}
    (hstep : ∀ state, Yields words (step state) fun result =>
      match result.2 with
      | none => L state [result.1]
      | some next => ∀ values, L next values → L state (result.1 :: values))
    (hnil : ∀ state, L state []) (state : σ) :
    Yields words (unfold step state) fun values => values ≠ [] ∧ L state values := by
  have hrounds : ∀ (rounds : Nat) (state : σ), Yields words (unfoldUpTo step rounds state)
      fun values => (rounds ≠ 0 → values ≠ []) ∧ L state values := by
    intro rounds
    induction rounds with
    | zero => exact fun state => .pure ⟨fun hzero => absurd rfl hzero, hnil state⟩
    | succ rounds ih =>
      intro state
      apply (hstep state).bind
      intro result hresult
      obtain ⟨value, next?⟩ := result
      cases next? with
      | none => exact .pure ⟨fun _ => List.cons_ne_nil value [], hresult⟩
      | some next =>
        exact (ih next).map fun values hvalues =>
          ⟨fun _ => List.cons_ne_nil value values, hresult values hvalues.2⟩
  intro cursor values rest hover hrun
  obtain ⟨⟨hne, hvalues⟩, hrest⟩ := hrounds (cursor.ahead.length + 1) state hover hrun
  exact ⟨⟨hne (Nat.succ_ne_zero _), hvalues⟩, hrest⟩

theorem Yields.separated {item : Parser α} (hitem : Yields words item P) (separator : TokenKind) :
    Yields words (separated item separator) fun values => values ≠ [] ∧ ∀ value ∈ values, P value := by
  refine yields_unfold (L := fun _ values => ∀ value ∈ values, P value) (fun _ => ?_)
    (fun _ => by simp) ()
  apply hitem.bind
  intro value hvalue
  apply (yields_accept separator).bind
  intro more _
  cases more with
  | false => exact .pure fun other hother => List.mem_singleton.mp hother ▸ hvalue
  | true =>
    refine .pure ?_
    intro values hvalues
    exact List.forall_mem_cons.mpr ⟨hvalue, hvalues⟩

theorem Yields.chain {operand : Parser α} {operator? : Parser (Option β)}
    {combine : β → α → α → Except Fault α} (hoperand : Yields words operand P)
    (hoperator : Yields words operator? fun _ => True)
    (hcombine : ∀ operator left right value, P left → P right →
      combine operator left right = .ok value → P value) :
    Yields words (chain operand operator? combine) P := by
  apply hoperand.bind
  intro first hfirst
  refine yields_iterate (fun left hleft => ?_) hfirst
  apply hoperator.bind
  intro found _
  cases found with
  | none => exact .pure (by simp)
  | some operator =>
    apply hoperand.bind
    intro right hright
    apply (yields_ofExcept (hcombine operator left right · hleft hright)).map
    intro value hvalue
    exact fun next hnext => Option.mem_some.mp hnext ▸ hvalue

end Loops

end ODataOptions.Parser
