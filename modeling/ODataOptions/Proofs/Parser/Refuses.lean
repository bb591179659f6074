import ODataOptions.Proofs.Parser.Reads

/-!
# What parsers refuse and what they leave

A parser refuses words if it fails wherever one of them comes next.  And from a cursor, it may be known
which tokens a parser leaves ahead, whether it succeeds there or not.
-/

namespace ODataOptions.Parser

variable {α β σ : Type} {test : Word → Prop}

/-- The parser fails before any word that passes the test. -/
def Refuses (parser : Parser α) (test : Word → Prop) : Prop :=
  ∀ cursor : Cursor, test cursor.current.word → ∃ fault last, parser cursor = .error fault last

theorem Refuses.bind {parser : Parser β} (hparser : Refuses parser test) (next : β → Parser α) :
    Refuses (parser >>= next) test := by
  intro cursor hword
  obtain ⟨fault, last, hrun⟩ := hparser cursor hword
  rw [bind_run, hrun]
  exact ⟨fault, last, rfl⟩

theorem refuses_current {next : Token → Parser α}
    (hnext : ∀ token : Token, test token.word → Refuses (next token) test) :
    Refuses (current >>= next) test :=
  fun cursor hword => hnext cursor.current hword cursor hword

theorem refuses_failHere (problem : Problem) : Refuses (failHere problem : Parser α) test :=
  fun _ _ => ⟨_, _, rfl⟩

theorem refuses_unexpected (expected : String) : Refuses (unexpected expected : Parser α) test :=
  fun _ _ => ⟨_, _, rfl⟩

/-- A token of another kind is refused. -/
theorem refuses_expect {kind : TokenKind} (hkind : ∀ word, test word → word.isA kind = false) :
    Refuses (expect kind) test := by
  intro cursor hword
  rw [expect_run, ← Token.isA_word, hkind _ hword]
  exact ⟨_, _, rfl⟩

theorem Refuses.mono {parser : Parser α} {test' : Word → Prop} (hparser : Refuses parser test)
    (himp : ∀ word, test' word → test word) : Refuses parser test' :=
  fun cursor hword => hparser cursor (himp _ hword)

theorem Refuses.nested {parser : Parser α} (hparser : Refuses parser test) (limit : Nat) :
    Refuses (nested limit parser) test := by
  intro cursor hword
  rw [Parser.nested]
  split
  · exact ⟨_, _, rfl⟩
  · obtain ⟨fault, last, hrun⟩ := hparser { cursor with depth := cursor.depth + 1 } hword
    rw [hrun]
    exact ⟨_, _, rfl⟩

theorem Refuses.unfold {step : σ → Parser (α × Option σ)} {state : σ}
    (hstep : Refuses (step state) test) : Refuses (unfold step state) test := by
  intro cursor hword
  exact hstep.bind _ cursor hword

/-- What is refused is read under no condition. -/
theorem Refuses.reads {parser : Parser α} {depth : Nat} {words : List Word} {follow : Word → Prop}
    (hparser : Refuses parser test) (hahead : Ahead words follow test) (P : α → Prop) :
    Reads parser depth words follow False P :=
  fun cursor _ _ hpasses hfollow =>
    ⟨False.elim, fun _ => hparser cursor (hahead.current hpasses hfollow)⟩

/-- A sequence fails where its first part does. -/
theorem Reads.bind_false {parser : Parser β} {next : β → Parser α} {depth : Nat} {words : List Word}
    {follow : Word → Prop} {P : β → Prop} {Q : α → Prop}
    (hparser : Reads parser depth words follow False P) :
    Reads (parser >>= next) depth words follow False Q := by
  intro cursor rest hdepth hpasses hfollow
  obtain ⟨-, herror⟩ := hparser hdepth hpasses hfollow
  obtain ⟨fault, last, hrun⟩ := herror id
  rw [bind_run, hrun]
  exact ⟨False.elim, fun _ => ⟨fault, last, rfl⟩⟩

/-! ## Tokens left ahead -/

/-- If the parser succeeds, these are the tokens that it leaves. -/
def Leaves (parser : Parser α) (cursor : Cursor) (ahead : List Token) : Prop :=
  ∀ value rest, parser cursor = .ok value rest → rest.ahead = ahead

section Leaves

variable {cursor : Cursor} {ahead : List Token}

theorem leaves_of_error {parser : Parser α}
    (herror : ∃ fault last, parser cursor = .error fault last) : Leaves parser cursor ahead := by
  intro value rest hrun
  obtain ⟨fault, last, herror⟩ := herror
  rw [herror] at hrun
  cases hrun

theorem leaves_pure {value : α} (hahead : cursor.ahead = ahead) :
    Leaves (pure value) cursor ahead := by
  intro _ _ hrun
  cases hrun
  exact hahead

/-- The second part leaves what it leaves behind every value of the first one. -/
theorem Leaves.bind {parser : Parser β} {next : β → Parser α} (hparser : Leaves parser cursor ahead)
    (hnext : ∀ value (rest : Cursor), rest.ahead = ahead → Leaves (next value) rest ahead) :
    Leaves (parser >>= next) cursor ahead := by
  intro value rest hrun
  obtain ⟨first, middle, hfirst, hsecond⟩ := bind_eq_ok_iff.mp hrun
  exact hnext first middle (hparser first middle hfirst) value rest hsecond

theorem leaves_ofExcept {result : Except Fault α} (hahead : cursor.ahead = ahead) :
    Leaves (ofExcept result) cursor ahead := by
  cases result with
  | ok value => exact leaves_pure hahead
  | error fault => exact leaves_of_error ⟨fault, cursor, rfl⟩

theorem Leaves.nested {parser : Parser α} (limit : Nat)
    (hparser : Leaves parser { cursor with depth := cursor.depth + 1 } ahead) :
    Leaves (nested limit parser) cursor ahead := by
  intro value rest hrun
  rw [Parser.nested] at hrun
  split at hrun
  · cases hrun
  · cases hinner : parser { cursor with depth := cursor.depth + 1 } with
    | error fault last =>
      rw [hinner] at hrun
      cases hrun
    | ok found last =>
      rw [hinner] at hrun
      cases hrun
      exact hparser value last hinner

theorem oneOfWords_run (text : β → String) (meanings : List β) (cursor : Cursor) :
    oneOfWords text meanings cursor =
      match meanings.find? fun meaning => cursor.current.isWord (text meaning) with
      | some meaning => .ok (some meaning) cursor.advance
      | none => .ok none cursor := by
  induction meanings with
  | nil => rfl
  | cons meaning meanings ih =>
    rw [oneOfWords, bind_run, acceptWord_run]
    cases hword : cursor.current.isWord (text meaning) with
    | true => simp [List.find?, hword, pure_run]
    | false => simpa [List.find?, hword] using ih

/-- An operand that is not followed by an operator, or by one that no operand follows. -/
theorem Leaves.chain {operand : Parser α} {operator? : Parser (Option β)}
    {combine : β → α → α → Except Fault α} (hoperand : Leaves operand cursor ahead)
    (hoperator : ∀ (behind : Cursor), behind.ahead = ahead →
      operator? behind = .ok none behind ∨
      ∃ operator next, operator? behind = .ok (some operator) next ∧
        ∃ fault last, operand next = .error fault last) :
    Leaves (chain operand operator? combine) cursor ahead := by
  apply hoperand.bind
  intro left behind hbehind
  have hloop : ∀ rounds, Leaves (iterateUpTo (fun left => do
      match ← operator? with
      | some operator => return some (← ofExcept (combine operator left (← operand)))
      | none => pure none) rounds left) behind ahead := by
    intro rounds
    cases rounds with
    | zero => exact leaves_pure hbehind
    | succ rounds =>
      intro value rest hrun
      obtain ⟨_, _, hstep, hrest⟩ := bind_eq_ok_iff.mp hrun
      obtain ⟨_, _, hfound, hstep⟩ := bind_eq_ok_iff.mp hstep
      rcases hoperator behind hbehind with hnone | ⟨operator, next, hsome, fault, last, herror⟩
      · rw [hnone] at hfound
        cases hfound
        cases hstep
        cases hrest
        exact hbehind
      · rw [hsome] at hfound
        cases hfound
        obtain ⟨_, _, hoperand, -⟩ := bind_eq_ok_iff.mp hstep
        rw [herror] at hoperand
        cases hoperand
  exact hloop _

end Leaves

end ODataOptions.Parser
