import ODataOptions.Proofs.Parser.Moves

/-!
# What a run leads to

`Parser.Leads cursor parser P E` says that the parser, run from the cursor, either yields a value that
satisfies `P` together with the cursor where it stops, or fails with a fault that satisfies `E`.  There is
one rule for each way to build a parser, and behind another one a parser may rely on the run of that one.
-/

namespace ODataOptions.Parser

variable {α β σ : Type} {cursor : Cursor} {P : α → Cursor → Prop} {E : Fault → Prop}

/-- The run ends with a value and a cursor of the one predicate, or with a fault of the other one. -/
def Leads (cursor : Cursor) (parser : Parser α) (P : α → Cursor → Prop) (E : Fault → Prop) : Prop :=
  match parser cursor with
  | .ok value rest => P value rest
  | .error fault _ => E fault

theorem Leads.of_ok {parser : Parser α} {value : α} {rest : Cursor} (hparser : Leads cursor parser P E)
    (hrun : parser cursor = .ok value rest) : P value rest := by
  rw [Leads, hrun] at hparser
  exact hparser

theorem Leads.of_error {parser : Parser α} {fault : Fault} {rest : Cursor}
    (hparser : Leads cursor parser P E) (hrun : parser cursor = .error fault rest) : E fault := by
  rw [Leads, hrun] at hparser
  exact hparser

/-! ## Sequencing -/

theorem Leads.mono {Q : α → Cursor → Prop} {parser : Parser α} (hparser : Leads cursor parser P E)
    (himp : ∀ value rest, P value rest → Q value rest) : Leads cursor parser Q E := by
  rw [Leads] at hparser ⊢
  cases hrun : parser cursor with
  | ok value rest =>
    rw [hrun] at hparser
    exact himp value rest hparser
  | error fault rest =>
    rw [hrun] at hparser
    exact hparser

theorem Leads.pure {value : α} (hvalue : P value cursor) : Leads cursor (pure value) P E := hvalue

theorem leads_throw {fault : Fault} (hfault : E fault) : Leads cursor (throw fault) P E := hfault

theorem leads_failHere {problem : Problem} (hfault : E { problem, span := cursor.current.span }) :
    Leads cursor (failHere problem) P E := hfault

theorem leads_unexpected {expected : String}
    (hfault : E { problem := .unexpected expected cursor.current, span := cursor.current.span }) :
    Leads cursor (unexpected expected) P E := hfault

theorem leads_ofExcept {result : Except Fault α} (hok : ∀ value, result = .ok value → P value cursor)
    (herror : ∀ fault, result = .error fault → E fault) : Leads cursor (ofExcept result) P E := by
  rw [Leads, ofExcept_run]
  cases result with
  | ok value => exact hok value rfl
  | error fault => exact herror fault rfl

theorem Leads.bind {P : β → Cursor → Prop} {Q : α → Cursor → Prop} {parser : Parser β}
    {next : β → Parser α} (hparser : Leads cursor parser P E)
    (hnext : ∀ value rest, parser cursor = .ok value rest → P value rest →
      Leads rest (next value) Q E) : Leads cursor (parser >>= next) Q E := by
  rw [Leads] at hparser ⊢
  rw [bind_run]
  cases hrun : parser cursor with
  | ok value rest =>
    rw [hrun] at hparser
    exact hnext value rest hrun hparser
  | error fault rest =>
    rw [hrun] at hparser
    exact hparser

theorem Leads.map {P : β → Cursor → Prop} {Q : α → Cursor → Prop} {parser : Parser β} {f : β → α}
    (hparser : Leads cursor parser P E) (hf : ∀ value rest, P value rest → Q (f value) rest) :
    Leads cursor (parser >>= fun value => Pure.pure (f value)) Q E := by
  apply hparser.bind
  intro value rest _ hvalue
  exact .pure (hf value rest hvalue)

theorem Leads.current_bind {next : Token → Parser α} (hnext : Leads cursor (next cursor.current) P E) :
    Leads cursor (current >>= next) P E := hnext

theorem Leads.get_bind {next : Cursor → Parser α} (hnext : Leads cursor (next cursor) P E) :
    Leads cursor (get >>= next) P E := hnext

/-! ## Tokens -/

theorem Leads.next_bind {next : Token → Parser α}
    (hnext : Leads cursor.advance (next cursor.current) P E) : Leads cursor (Parser.next >>= next) P E := by
  rw [Leads, bind_run, next_run]
  exact hnext

theorem Leads.accept_bind {kind : TokenKind} {next : Bool → Parser α}
    (htrue : cursor.current.isA kind = true → Leads cursor.advance (next true) P E)
    (hfalse : Leads cursor (next false) P E) : Leads cursor (accept kind >>= next) P E := by
  rw [Leads, bind_run, accept_run]
  by_cases hfound : cursor.current.isA kind = true
  · rw [if_pos hfound]
    exact htrue hfound
  · rw [if_neg hfound]
    exact hfalse

/-- Another token than the expected one is reported as found. -/
theorem Leads.expect_bind {kind : TokenKind} {next : Token → Parser α}
    (hnext : cursor.current.isA kind = true → Leads cursor.advance (next cursor.current) P E)
    (hfault : E { problem := .unexpected kind.describe cursor.current, span := cursor.current.span }) :
    Leads cursor (expect kind >>= next) P E := by
  rw [Leads, bind_run, expect_run]
  by_cases hfound : cursor.current.isA kind = true
  · rw [if_pos hfound]
    exact hnext hfound
  · rw [if_neg hfound]
    exact hfault

/-- A word that is found is consumed, or else the cursor stays. -/
theorem leads_oneOfWords (word : α → String) (meanings : List α) :
    Leads cursor (oneOfWords word meanings) (fun found rest =>
      match found with
      | some meaning =>
        meaning ∈ meanings ∧ cursor.current.isWord (word meaning) = true ∧ rest = cursor.advance
      | none => rest = cursor) E := by
  induction meanings with
  | nil => exact rfl
  | cons meaning meanings ih =>
    rw [Leads, oneOfWords, bind_run, acceptWord_run]
    by_cases hword : cursor.current.isWord (word meaning) = true
    · rw [if_pos hword]
      exact ⟨List.mem_cons_self, hword, rfl⟩
    · rw [if_neg hword]
      apply Leads.mono ih
      intro found rest hfound
      cases found with
      | none => exact hfound
      | some other => exact ⟨List.mem_cons_of_mem meaning hfound.1, hfound.2⟩

/-- A level is opened below the limit only, and it is closed again. -/
theorem Leads.nested {parser : Parser α} {limit : Nat}
    (hfault : E { problem := .expressionTooDeep limit, span := cursor.current.span })
    (hparser : cursor.depth < limit → Leads { cursor with depth := cursor.depth + 1 } parser
      (fun value rest => P value { rest with depth := rest.depth - 1 }) E) :
    Leads cursor (nested limit parser) P E := by
  rw [Leads, Parser.nested]
  by_cases hlimit : limit ≤ cursor.depth
  · rw [if_pos hlimit]
    exact hfault
  · rw [if_neg hlimit]
    have hinner := hparser (Nat.lt_of_not_le hlimit)
    cases hrun : parser { cursor with depth := cursor.depth + 1 } with
    | ok value rest => exact hinner.of_ok hrun
    | error fault rest => exact hinner.of_error hrun

/-! ## Loops -/

/-- What holds at the first round and is kept by each one holds at the end. -/
theorem Leads.iterate {I : σ → Cursor → Prop} {step : σ → Parser (Option σ)} {state : σ}
    (hstep : ∀ cursor state, I state cursor →
      Leads cursor (step state) (fun next? rest => I (next?.getD state) rest) E)
    (hstate : I state cursor) : Leads cursor (iterate step state) I E := by
  have hrounds : ∀ rounds cursor state, I state cursor →
      Leads cursor (iterateUpTo step rounds state) I E := by
    intro rounds
    induction rounds with
    | zero => exact fun _ _ hstate => hstate
    | succ rounds ih =>
      intro cursor state hstate
      apply (hstep cursor state hstate).bind
      intro next? rest _ hnext
      cases next? with
      | none => exact hnext
      | some next => exact ih rest next hnext
  exact hrounds _ cursor state hstate

/-- Where no step follows, the values so far are enough.  Where one follows, it begins where `I` holds, and
the value may stand before all that it adds. -/
theorem Leads.unfold {I : σ → Cursor → Prop} {R : List α → Cursor → Prop}
    {step : σ → Parser (α × Option σ)} {state : σ}
    (hstep : ∀ cursor state, I state cursor → Leads cursor (step state) (fun result rest =>
      (result.2 = none → R [result.1] rest) ∧
        ∀ next ∈ result.2, I next rest ∧ ∀ values last, R values last → R (result.1 :: values) last) E)
    (hnil : ∀ cursor state, I state cursor → R [] cursor) (hstate : I state cursor) :
    Leads cursor (unfold step state) R E := by
  have hrounds : ∀ rounds cursor state, I state cursor →
      Leads cursor (unfoldUpTo step rounds state) R E := by
    intro rounds
    induction rounds with
    | zero => exact fun cursor state hstate => hnil cursor state hstate
    | succ rounds ih =>
      intro cursor state hstate
      apply (hstep cursor state hstate).bind
      intro result rest _ hresult
      obtain ⟨value, next?⟩ := result
      cases next? with
      | none => exact hresult.1 rfl
      | some next =>
        obtain ⟨hnext, hcons⟩ := hresult.2 next rfl
        exact (ih rest next hnext).map fun values last hvalues => hcons values last hvalues
  exact hrounds _ cursor state hstate

/-- Each item has been parsed where an item may begin, up to a separator or up to the end. -/
theorem Leads.separated {I : Cursor → Prop} {item : Parser α} {separator : TokenKind}
    (hitem : ∀ cursor, I cursor → Leads cursor item P E)
    (hnext : ∀ cursor value rest, I cursor → item cursor = .ok value rest →
      rest.current.isA separator = true → I rest.advance)
    (hstart : I cursor) :
    Leads cursor (separated item separator) (fun values rest => ∀ value ∈ values,
      ∃ before behind, I before ∧ item before = .ok value behind ∧
        (behind.current.isA separator = true ∨ behind = rest)) E := by
  refine Leads.unfold (I := fun _ => I) (fun cursor _ hcursor => ?_)
    (fun _ _ _ => List.forall_mem_nil _) hstart
  apply (hitem cursor hcursor).bind
  intro value behind hrun _
  refine .accept_bind (fun hfound => .pure ⟨nofun, ?_⟩) (.pure ⟨fun _ => ?_, nofun⟩)
  · rintro _ ⟨⟩
    refine ⟨hnext cursor value behind hcursor hrun hfound, fun values last hvalues => ?_⟩
    exact List.forall_mem_cons.mpr ⟨⟨cursor, behind, hcursor, hrun, .inl hfound⟩, hvalues⟩
  · exact List.forall_mem_singleton.mpr ⟨cursor, behind, hcursor, hrun, .inr rfl⟩

end ODataOptions.Parser
