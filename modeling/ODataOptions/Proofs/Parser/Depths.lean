import ODataOptions.Proofs.Parser.Leads

/-!
# What parsers yield at a depth

`Parser.YieldsAt depth parser P` says that every value which the parser yields where `depth` levels are
open satisfies `P`, and that as many levels are open behind it.  A level is opened by `Parser.nested`
alone, and only below the limit.
-/

namespace ODataOptions.Parser

variable {α β σ : Type} {depth : Nat} {P Q : α → Prop}

/-- With so many levels open, the parser yields values of the predicate only and leaves as many open. -/
def YieldsAt (depth : Nat) (parser : Parser α) (P : α → Prop) : Prop :=
  ∀ cursor : Cursor, cursor.depth = depth →
    Leads cursor parser (fun value rest => P value ∧ rest.depth = depth) fun _ => True

theorem YieldsAt.of_ok {parser : Parser α} {cursor rest : Cursor} {value : α}
    (hparser : YieldsAt cursor.depth parser P) (hrun : parser cursor = .ok value rest) : P value :=
  ((hparser cursor rfl).of_ok hrun).1

/-! ## Sequencing -/

theorem YieldsAt.mono {parser : Parser α} (hparser : YieldsAt depth parser P)
    (himp : ∀ value, P value → Q value) : YieldsAt depth parser Q :=
  fun cursor hdepth => (hparser cursor hdepth).mono fun value _ hvalue => hvalue.imp_left (himp value)

/-- Whatever is yielded, the depth remains. -/
theorem Moves.yieldsAt {parser : Parser α} (hparser : Moves parser) :
    YieldsAt depth parser fun _ => True := by
  intro cursor hdepth
  rw [Leads]
  cases hrun : parser cursor with
  | error => trivial
  | ok value rest =>
    obtain ⟨words, hpasses⟩ := hparser.passes hrun
    exact ⟨trivial, hpasses.depth_eq.trans hdepth⟩

theorem YieldsAt.pure {value : α} (hvalue : P value) : YieldsAt depth (pure value) P :=
  fun _ hdepth => .pure ⟨hvalue, hdepth⟩

theorem YieldsAt.bind {P : β → Prop} {parser : Parser β} {next : β → Parser α}
    (hparser : YieldsAt depth parser P) (hnext : ∀ value, P value → YieldsAt depth (next value) Q) :
    YieldsAt depth (parser >>= next) Q := by
  intro cursor hdepth
  apply (hparser cursor hdepth).bind
  rintro value rest _ ⟨hvalue, hrest⟩
  exact hnext value hvalue rest hrest

/-- A parser whose value does not matter comes first. -/
theorem Moves.bind_yieldsAt {parser : Parser β} {next : β → Parser α} (hparser : Moves parser)
    (hnext : ∀ value, YieldsAt depth (next value) Q) : YieldsAt depth (parser >>= next) Q := by
  apply hparser.yieldsAt.bind
  intro value _
  exact hnext value

theorem moves_oneOfWords (word : α → String) (meanings : List α) :
    Moves (oneOfWords word meanings) := by
  induction meanings with
  | nil => exact moves_pure none
  | cons meaning meanings ih =>
    apply (moves_acceptWord _).bind
    intro found
    cases found with
    | true => exact moves_pure (some meaning)
    | false => exact ih

/-- What a value is made into by a function on success. -/
theorem YieldsAt.map {P : β → Prop} {parser : Parser β} {f : β → α}
    (hparser : YieldsAt depth parser P) (hf : ∀ value, P value → Q (f value)) :
    YieldsAt depth (parser >>= fun value => Pure.pure (f value)) Q := by
  apply hparser.bind
  intro value hvalue
  exact .pure (hf value hvalue)

theorem yieldsAt_throw (fault : Fault) : YieldsAt depth (throw fault) P :=
  fun _ _ => leads_throw trivial

theorem yieldsAt_failHere (problem : Problem) : YieldsAt depth (failHere problem) P :=
  fun _ _ => leads_failHere trivial

theorem yieldsAt_unexpected (expected : String) : YieldsAt depth (unexpected expected) P :=
  fun _ _ => leads_unexpected trivial

theorem yieldsAt_ofExcept {result : Except Fault α} (hresult : ∀ value, result = .ok value → P value) :
    YieldsAt depth (ofExcept result) P :=
  fun _ hdepth => leads_ofExcept (fun value hvalue => ⟨hresult value hvalue, hdepth⟩) fun _ _ => trivial

/-- A level is opened below the limit only, and it is closed again. -/
theorem YieldsAt.nested {parser : Parser α} {limit : Nat}
    (hparser : depth < limit → YieldsAt (depth + 1) parser P) :
    YieldsAt depth (nested limit parser) P := by
  intro cursor hdepth
  subst hdepth
  apply Leads.nested trivial
  intro hbelow
  apply (hparser hbelow { cursor with depth := cursor.depth + 1 } rfl).mono
  intro value rest hvalue
  exact ⟨hvalue.1, congrArg (· - 1) hvalue.2⟩

theorem yieldsAt_oneOfWords (word : α → String) (meanings : List α) :
    YieldsAt depth (oneOfWords word meanings) fun meaning? => ∀ meaning ∈ meaning?,
      meaning ∈ meanings := by
  induction meanings with
  | nil => exact .pure (by simp)
  | cons meaning meanings ih =>
    apply (moves_acceptWord _).bind_yieldsAt
    intro found
    cases found with
    | true => exact .pure (by simp)
    | false =>
      apply ih.mono
      intro _ hmem other hother
      exact List.mem_cons_of_mem _ (hmem other hother)

/-! ## Loops -/

theorem yieldsAt_iterate {step : σ → Parser (Option σ)} {I : σ → Prop} {state : σ}
    (hstep : ∀ state, I state → YieldsAt depth (step state) fun next? => ∀ next ∈ next?, I next)
    (hstate : I state) : YieldsAt depth (iterate step state) I := by
  intro cursor hdepth
  refine Leads.iterate (I := fun state cursor => I state ∧ cursor.depth = depth) ?_ ⟨hstate, hdepth⟩
  intro cursor state ⟨hstate, hdepth⟩
  refine (hstep state hstate cursor hdepth).mono fun next? rest ⟨hnext, hrest⟩ => ⟨?_, hrest⟩
  cases next? with
  | none => exact hstate
  | some next => exact hnext next rfl

theorem yieldsAt_separatedFrom {step : σ → Parser σ} {I : σ → Prop} {state : σ}
    (hstep : ∀ state, I state → YieldsAt depth (step state) I) (separator : TokenKind)
    (hstate : I state) : YieldsAt depth (separatedFrom step separator state) I := by
  apply (hstep state hstate).bind
  intro first hfirst
  refine yieldsAt_iterate ?_ hfirst
  intro state hstate
  apply (moves_accept separator).bind_yieldsAt
  intro found
  cases found with
  | false => exact .pure (by simp)
  | true =>
    apply (hstep state hstate).map
    intro next hnext other hother
    cases hother
    exact hnext

/-- What each step yields, the values of all steps are. -/
theorem yieldsAt_unfold {step : σ → Parser (α × Option σ)}
    (hstep : ∀ state, YieldsAt depth (step state) fun result => P result.1) (state : σ) :
    YieldsAt depth (unfold step state) fun values => ∀ value ∈ values, P value := by
  intro cursor hdepth
  have hnil : ∀ (cursor : Cursor) (_ : σ), cursor.depth = depth →
      (∀ value ∈ ([] : List α), P value) ∧ cursor.depth = depth :=
    fun _ _ hdepth => ⟨List.forall_mem_nil _, hdepth⟩
  refine Leads.unfold (I := fun _ cursor => cursor.depth = depth) ?_ (fun cursor state => hnil cursor state)
    hdepth
  intro cursor state hdepth
  apply (hstep state cursor hdepth).mono
  rintro result rest ⟨hresult, hrest⟩
  constructor
  · intro _
    exact ⟨List.forall_mem_singleton.mpr hresult, hrest⟩
  · rintro next _
    refine ⟨hrest, ?_⟩
    rintro values last ⟨hvalues, hlast⟩
    exact ⟨List.forall_mem_cons.mpr ⟨hresult, hvalues⟩, hlast⟩

theorem YieldsAt.separated {item : Parser α} (hitem : YieldsAt depth item P) (separator : TokenKind) :
    YieldsAt depth (separated item separator) fun values => ∀ value ∈ values, P value := by
  apply yieldsAt_unfold
  intro _
  apply hitem.bind
  intro _ hvalue
  exact (moves_accept separator).yieldsAt.map fun _ _ => hvalue

/-- What holds of the first operand and is kept by each operation holds of what has been combined. -/
theorem YieldsAt.chain {operand : Parser α} {operator? : Parser (Option β)}
    {combine : β → α → α → Except Fault α} {R : β → Prop} (hoperand : YieldsAt depth operand P)
    (hfirst : ∀ value, P value → Q value)
    (hoperator : YieldsAt depth operator? fun found => ∀ operator ∈ found, R operator)
    (hcombine : ∀ operator left right value, R operator → Q left → P right →
      combine operator left right = .ok value → Q value) :
    YieldsAt depth (chain operand operator? combine) Q := by
  apply hoperand.bind
  intro first hvalue
  refine yieldsAt_iterate ?_ (hfirst first hvalue)
  intro left hleft
  apply hoperator.bind
  intro found hfound
  cases found with
  | none => exact .pure (by simp)
  | some operator =>
    apply hoperand.bind
    intro right hright
    have hcombined : YieldsAt depth (ofExcept (combine operator left right)) Q :=
      yieldsAt_ofExcept fun value =>
        hcombine operator left right value (hfound operator rfl) hleft hright
    apply hcombined.map
    intro value hvalue next hnext
    cases hnext
    exact hvalue

end ODataOptions.Parser
