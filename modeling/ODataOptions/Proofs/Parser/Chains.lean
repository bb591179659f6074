import ODataOptions.Proofs.Parser.Reads

/-!
# Chains that are read operand by operand

A chain combines its operands from the left, so the operands and operators read so far make up the
left operand of what comes next.  `Parser.ReadsChain` is what is known of such a beginning: whatever
words the loop goes on with, it takes the words of the beginning first.
-/

namespace ODataOptions.Parser

variable {α β σ : Type} {depth : Nat} {words second sign : List Word}
  {follow middle leftMiddle rightMiddle : Word → Prop} {P Q R : α → Prop}

/-! ## Steps of a loop -/

/-- From the state, a loop takes the words, if what comes next may follow them, and is then in a state
that satisfies `P`.  It takes no more steps than there are words. -/
def Steps (step : σ → Parser (Option σ)) (depth : Nat) (words : List Word) (middle : Word → Prop)
    (state : σ) (P : σ → Prop) : Prop :=
  ∃ count ≤ words.length, ∀ (rounds : Nat) (more : List Word) (follow : Word → Prop) (Q : σ → Prop),
    Ahead more follow middle →
    (∀ next, P next → Reads (iterateUpTo step rounds next) depth more follow True Q) →
    Reads (iterateUpTo step (rounds + count) state) depth (words ++ more) follow True Q

section Steps

variable {step : σ → Parser (Option σ)} {state : σ} {P Q : σ → Prop}

theorem Steps.nil (hstate : P state) : Steps step depth [] middle state P :=
  ⟨0, Nat.zero_le _, fun _ _ _ _ _ hloop => hloop state hstate⟩

/-- One step more, over one word or more. -/
theorem Steps.snoc (hsteps : Steps step depth words leftMiddle state P)
    (hstep : ∀ next, P next → Reads (step next) depth second middle True fun next? =>
      ∃ last, next? = some last ∧ Q last)
    (hne : second ≠ []) (hahead : Ahead second middle leftMiddle) :
    Steps step depth (words ++ second) middle state Q := by
  obtain ⟨count, hcount, hloop⟩ := hsteps
  have hlength : 0 < second.length := List.length_pos_of_ne_nil hne
  refine ⟨count + 1, by rw [List.length_append]; omega, ?_⟩
  intro rounds more follow R hmore hrest
  have hbehind : Ahead (second ++ more) follow leftMiddle := by
    cases second with
    | nil => exact absurd rfl hne
    | cons => exact hahead
  have hloop' := hloop (rounds + 1) (second ++ more) follow R hbehind fun next hnext =>
    (reads_iterateUpTo_step (hstep next hnext) hmore hrest).congr_fits (iff_of_eq (true_and True).symm)
  rwa [Nat.add_right_comm, ← List.append_assoc] at hloop'

end Steps

/-! ## Chains -/

variable {operand : Parser α} {operator? : Parser (Option β)} {combine : β → α → α → Except Fault α}

/-- One round of a chain: an operator and the operand behind it, if an operator comes. -/
def chainStep (operand : Parser α) (operator? : Parser (Option β))
    (combine : β → α → α → Except Fault α) (left : α) : Parser (Option α) := do
  match ← operator? with
  | some operator => return some (← ofExcept (combine operator left (← operand)))
  | none => pure none

theorem chain_eq_bind :
    chain operand operator? combine =
      (operand >>= iterate (chainStep operand operator? combine)) := rfl

/-- The words are those of operands with operators between them, whose combination satisfies `P`.  The
chain can go on behind them, if what comes next may follow the last operand. -/
def ReadsChain (operand : Parser α) (operator? : Parser (Option β))
    (combine : β → α → α → Except Fault α) (depth : Nat) (words : List Word) (middle : Word → Prop)
    (P : α → Prop) : Prop :=
  ∃ (first later : List Word) (firstMiddle : Word → Prop) (Q : α → Prop), words = first ++ later ∧
    Reads operand depth first firstMiddle True Q ∧ Ahead later middle firstMiddle ∧
    ∀ value, Q value → Steps (chainStep operand operator? combine) depth later middle value P

/-- An operand alone. -/
theorem Reads.chain_begin (hoperand : Reads operand depth words middle True P) :
    ReadsChain operand operator? combine depth words middle P :=
  ⟨words, [], middle, P, (List.append_nil words).symm, hoperand, fun _ h => h,
    fun _ hvalue => .nil hvalue⟩

/-- An operator and an operand behind a chain.  The operator may be written in no words, if the words
of the operand tell that it is meant. -/
theorem ReadsChain.extend {operator : β}
    (hleft : ReadsChain operand operator? combine depth words leftMiddle P)
    (hoperator : Reads operator? depth sign rightMiddle True (· = some operator))
    (hahead : Ahead second middle rightMiddle)
    (hright : Reads operand depth second middle True R) (hne : second ≠ [])
    (hleftAhead : Ahead (sign ++ second) middle leftMiddle)
    (hcombine : ∀ left right, P left → R right →
      ∃ value, combine operator left right = .ok value ∧ Q value) :
    ReadsChain operand operator? combine depth (words ++ (sign ++ second)) middle Q := by
  obtain ⟨first, later, firstMiddle, S, rfl, hfirst, hlater, hsteps⟩ := hleft
  have hbehind : sign ++ second ≠ [] := List.append_ne_nil_of_right_ne_nil sign hne
  have hstep : ∀ left, P left → Reads (chainStep operand operator? combine left) depth
      (sign ++ second) middle True fun next? => ∃ value, next? = some value ∧ Q value := by
    intro left hl
    apply hoperator.bind_sure hahead
    rintro _ rfl
    apply hright.bind_end (fun _ h => h)
    intro right hr
    exact (reads_ofExcept trivial (hcombine left right hl hr)).map fun value hvalue =>
      ⟨value, rfl, hvalue⟩
  refine ⟨first, later ++ (sign ++ second), firstMiddle, S, List.append_assoc _ _ _, hfirst, ?_,
    fun value hvalue => (hsteps value hvalue).snoc hstep hbehind hleftAhead⟩
  cases later with
  | nil => exact hleftAhead.mono hlater
  | cons => exact hlater

/-- A chain ends where no operator follows. -/
theorem ReadsChain.reads (hchain : ReadsChain operand operator? combine depth words middle P)
    (hfollow : ∀ word, follow word → middle word)
    (hnone : Reads operator? depth [] follow True (· = none)) :
    Reads (chain operand operator? combine) depth words follow True P := by
  obtain ⟨first, later, firstMiddle, Q, rfl, hfirst, hlater, hsteps⟩ := hchain
  have hstop : ∀ left, Reads (chainStep operand operator? combine left) depth [] follow True
      (· = none) := by
    intro left
    apply hnone.bind_end fun _ h => h
    rintro _ rfl
    exact reads_pure trivial rfl
  rw [chain_eq_bind]
  apply hfirst.bind_sure (hlater.follow_mono hfollow)
  intro value hvalue
  obtain ⟨count, hcount, hloop⟩ := hsteps value hvalue
  apply Reads.iterate count (Nat.le_succ_of_le hcount)
  intro rounds hrounds
  obtain ⟨rounds, rfl⟩ := Nat.exists_eq_add_of_le' hrounds
  have hread := hloop rounds [] follow P hfollow fun next hnext =>
    reads_iterateUpTo_stop trivial hnext (hstop next) rounds
  rwa [List.append_nil] at hread

end ODataOptions.Parser
