import Mathlib.Logic.Function.Iterate
import ODataOptions.Proofs.Parser.Regions

/-!
# Recursion between parsers

Parsers that call one another are a family, and what each of them does in terms of the others is the body of
the recursion; a loop is one of them too, which calls itself for its next round.  The recursion descends if
every call that is made while another one is under way starts behind tokens that have been consumed since,
or else at the same place on a lower rung.

So the tokens ahead and the rungs bound how many calls there are inside one another.  Beyond that number it
does not matter what a call would do.
-/

namespace ODataOptions.Parser

variable {α β σ : Type}

/-! ## Rounds of loops -/

/-- One round of `iterate`, and then what is to be done with the next state. -/
def iterateOnce (step : σ → Parser (Option σ)) (again : σ → Parser σ) (state : σ) : Parser σ := do
  match ← step state with
  | some next => again next
  | none => pure state

/-- One round of `unfold`, and then what is to be done with the next state. -/
def unfoldOnce (step : σ → Parser (α × Option σ)) (again : σ → Parser (List α)) (state : σ) :
    Parser (List α) := do
  let (value, next?) ← step state
  match next? with
  | some next => return value :: (← again next)
  | none => pure [value]

/-- A loop is its first round, and then the loop again. -/
theorem iterate_eq_once {step : σ → Parser (Option σ)}
    (hprogress : ∀ state, Progresses (·.isSome) (step state)) (state : σ) :
    iterate step state = iterateOnce step (iterate step) state := by
  funext cursor
  rw [iterate_run hprogress, iterateOnce, bind_run]
  cases step state cursor with
  | error => rfl
  | ok next? rest => cases next? <;> rfl

theorem unfold_eq_once {step : σ → Parser (α × Option σ)}
    (hprogress : ∀ state, Progresses (·.2.isSome) (step state)) (state : σ) :
    unfold step state = unfoldOnce step (unfold step) state := by
  funext cursor
  rw [unfold_run hprogress, unfoldOnce, bind_run]
  cases step state cursor with
  | error => rfl
  | ok result rest =>
    obtain ⟨value, next?⟩ := result
    cases next? <;> rfl

/-! ## Rounds of lists and chains -/

theorem progresses_separatedStep {item : Parser α} (hitem : Moves item) {separator : TokenKind}
    (hseparator : separator ≠ .endOfInput) (state : Unit) :
    Progresses (·.2.isSome) (separatedStep item separator state) := by
  apply hitem.bind_progresses
  intro value
  exact (progresses_accept hseparator).bind_bool (moves_accept separator) (moves_pure _)
    (progresses_pure Bool.false_ne_true)

theorem separated_eq_once {item : Parser α} (hitem : Moves item) {separator : TokenKind}
    (hseparator : separator ≠ .endOfInput) :
    separated item separator =
      unfoldOnce (separatedStep item separator) (fun _ => separated item separator) () :=
  unfold_eq_once (progresses_separatedStep hitem hseparator) ()

/-- One round of `separatedFrom`, and then what is to be done with the next state if a separator stands behind
it. -/
def separatedFromOnce (step : σ → Parser σ) (separator : TokenKind) (again : σ → Parser σ) (state : σ) :
    Parser σ := do
  let next ← step state
  if ← accept separator then again next else return next

theorem separatedFrom_eq_once {step : σ → Parser σ} (hstep : ∀ state, Moves (step state))
    {separator : TokenKind} (hseparator : separator ≠ .endOfInput) (state : σ) :
    separatedFrom step separator state =
      separatedFromOnce step separator (separatedFrom step separator) state := by
  funext cursor
  rw [separatedFrom_run hstep hseparator, separatedFromOnce, bind_run]
  cases step state cursor with
  | error => rfl
  | ok next rest =>
    dsimp only
    rw [bind_run, accept_run]
    by_cases hfound : rest.current.isA separator = true
    · rw [if_pos hfound, if_pos hfound]
      rfl
    · rw [if_neg hfound, if_neg hfound]
      rfl

/-- A chain goes on behind an operand, which consumes a token even where the operator does not. -/
theorem progresses_chainStep {operand : Parser α} (hoperand : Consumes operand)
    {operator? : Parser (Option β)} (hoperator : Moves operator?)
    (combine : β → α → α → Except Fault α) (left : α) :
    Progresses (·.isSome) (chainStep operand operator? combine left) := by
  apply hoperator.bind_progresses
  intro found
  cases found with
  | none => exact progresses_pure Bool.false_ne_true
  | some operator =>
    have hstep := hoperand.bind fun right => (moves_ofExcept (combine operator left right)).map some
    exact hstep.progresses

/-- Behind the first operand, a chain is a loop. -/
theorem Consumes.chain {operand : Parser α} (hoperand : Consumes operand) (hmoves : Moves operand)
    {operator? : Parser (Option β)} (hoperator : Moves operator?)
    (combine : β → α → α → Except Fault α) : Consumes (chain operand operator? combine) :=
  hoperand.bind (moves_iterate (moves_chainStep hmoves hoperator combine))

theorem moves_chain {operand : Parser α} (hmoves : Moves operand)
    {operator? : Parser (Option β)} (hoperator : Moves operator?)
    (combine : β → α → α → Except Fault α) : Moves (chain operand operator? combine) :=
  hmoves.bind (moves_iterate (moves_chainStep hmoves hoperator combine))

theorem Consumes.separated {item : Parser α} (hconsumes : Consumes item) (hmoves : Moves item)
    (separator : TokenKind) : Consumes (separated item separator) := by
  apply Consumes.unfold _ (moves_separatedStep hmoves separator)
  intro _
  apply hconsumes.bind
  intro _
  exact (moves_accept separator).map _

namespace SameOn

variable {region inner : Cursor → Prop} (hinner : Cursor.Inner region inner)

include hinner

/-- The next round begins behind a token that this one has consumed. -/
theorem iterateOnce {step step' : σ → Parser (Option σ)} {again again' : σ → Parser σ} {state : σ}
    (hstep : SameOn region (step state) (step' state)) (hmoves : Moves (step' state))
    (hprogress : Progresses (·.isSome) (step' state))
    (hagain : ∀ next, SameOn inner (again next) (again' next)) :
    SameOn region (iterateOnce step again state) (Parser.iterateOnce step' again' state) := by
  apply hstep.bind_progresses hinner hmoves hprogress
  · intro next? hsome
    obtain ⟨next, rfl⟩ := Option.isSome_iff_exists.mp hsome
    exact hagain next
  · intro next? hnone
    rw [Option.not_isSome_iff_eq_none.mp hnone]
    exact refl region _

theorem unfoldOnce {step step' : σ → Parser (α × Option σ)} {again again' : σ → Parser (List α)}
    {state : σ} (hstep : SameOn region (step state) (step' state)) (hmoves : Moves (step' state))
    (hprogress : Progresses (·.2.isSome) (step' state))
    (hagain : ∀ next, SameOn inner (again next) (again' next)) :
    SameOn region (unfoldOnce step again state) (Parser.unfoldOnce step' again' state) := by
  apply hstep.bind_progresses hinner hmoves hprogress
  · rintro ⟨value, next?⟩ hsome
    obtain ⟨next, rfl⟩ := Option.isSome_iff_exists.mp hsome
    exact (hagain next).bind_same _
  · rintro ⟨value, next?⟩ hnone
    obtain rfl := Option.not_isSome_iff_eq_none.mp hnone
    exact refl region _

/-- The next step begins behind the separator. -/
theorem separatedFromOnce {step step' : σ → Parser σ} {again again' : σ → Parser σ} {state : σ}
    {separator : TokenKind} (hseparator : separator ≠ .endOfInput)
    (hstep : SameOn region (step state) (step' state)) (hmoves : Moves (step' state))
    (hagain : ∀ next, SameOn inner (again next) (again' next)) :
    SameOn region (separatedFromOnce step separator again state)
      (Parser.separatedFromOnce step' separator again' state) := by
  apply hstep.bind hinner hmoves
  intro next
  exact bind_bool hinner (moves_accept separator) (progresses_accept hseparator) (hagain next)
    (refl region _)

/-- Behind an operator that has been consumed, a chain calls for its next operand. -/
theorem chainStep_progresses {operand operand' : Parser α} {operator? : Parser (Option β)}
    (hmoves : Moves operator?) (hprogress : Progresses (·.isSome) operator?)
    (hoperand : SameOn inner operand operand') (combine : β → α → α → Except Fault α) (left : α) :
    SameOn region (Parser.chainStep operand operator? combine left)
      (Parser.chainStep operand' operator? combine left) :=
  bind_option hinner hmoves hprogress (fun _ => hoperand.bind_same _) (refl region _)

end SameOn

/-! ## Families of parsers -/

variable {ι : Type} {α : ι → Type}

/-- Parsers with names, by which they call one another. -/
abbrev Family (α : ι → Type) : Type := (name : ι) → Parser (α name)

/-- A call comes below another one if it starts behind tokens that have been consumed since, or else at the
same place on a lower rung. -/
def ComesBelow (rung : ι → Nat) (name : ι) (start : Cursor) (callee : ι) (cursor : Cursor) : Prop :=
  cursor.tokens = start.tokens ∧ (start.position < cursor.position ∨
    start.position = cursor.position ∧ rung callee < rung name)

/-- The family does what the body says, and what the body says of a call depends on no other calls than
those that come below it. -/
def Descends (rung : ι → Nat) (body : Family α → Family α) (family : Family α) : Prop :=
  ∀ (calls : Family α) (name : ι) (start : Cursor),
    (∀ callee cursor, ComesBelow rung name start callee cursor →
      calls callee cursor = family callee cursor) →
    body calls name start = family name start

variable {rung : ι → Nat} {body : Family α → Family α} {family : Family α}

/-- It is enough to follow the calls through the body, those behind a consumed token and those on lower
rungs apart. -/
theorem descends_of_sameOn (hbody : body family = family)
    (hcalls : ∀ (calls : Family α) (name : ι) (start : Cursor),
      (∀ callee, SameOn (Cursor.Behind start 1) (calls callee) (family callee)) →
      (∀ callee, rung callee < rung name →
        SameOn (Cursor.Behind start 0) (calls callee) (family callee)) →
      SameOn (Cursor.Behind start 0) (body calls name) (body family name)) :
    Descends rung body family := by
  intro calls name start hbelow
  have hbehind : ∀ callee, SameOn (Cursor.Behind start 1) (calls callee) (family callee) := by
    intro callee cursor hcursor
    exact hbelow callee cursor ⟨hcursor.tokens_eq, .inl hcursor.position_le⟩
  have hlower : ∀ callee, rung callee < rung name →
      SameOn (Cursor.Behind start 0) (calls callee) (family callee) := by
    intro callee hrung cursor hcursor
    rcases Nat.eq_or_lt_of_le hcursor.position_le with hsame | hlt
    · exact hbelow callee cursor ⟨hcursor.tokens_eq, .inr ⟨hsame, hrung⟩⟩
    · exact hbelow callee cursor ⟨hcursor.tokens_eq, .inl hlt⟩
  rw [hcalls calls name start hbehind hlower (.refl start), hbody]

/-- As many calls inside one another as there are rungs for each token ahead, and those that are left at its
own place, are enough for a call to return: it does not matter what stands for the calls beyond them. -/
theorem Descends.unrolled (hdescends : Descends rung body family) {height : Nat}
    (hheight : ∀ name, rung name < height) (bottom : Family α) {rounds : Nat} {name : ι} {start : Cursor}
    (hrounds : start.ahead.length * height + rung name < rounds) :
    body^[rounds] bottom name start = family name start := by
  induction rounds generalizing name start with
  | zero => exact absurd hrounds (Nat.not_lt_zero _)
  | succ rounds ih =>
    rw [Function.iterate_succ_apply']
    apply hdescends
    rintro callee cursor ⟨htokens, hbelow⟩
    have hlength := congrArg List.length htokens
    rw [Cursor.length_tokens, Cursor.length_tokens] at hlength
    have hcallee := hheight callee
    apply ih
    rcases hbelow with hlt | ⟨hsame, hrung⟩
    · have hahead : (cursor.ahead.length + 1) * height ≤ start.ahead.length * height :=
        Nat.mul_le_mul_right height (by omega)
      rw [Nat.succ_mul] at hahead
      omega
    · have hahead : cursor.ahead.length = start.ahead.length := by omega
      rw [hahead]
      omega

/-- The parser is one of a family that does what the body says and whose recursion descends.  As many calls
inside one another as there are rungs for each token ahead, and those left at its own place, are enough for it
to return. -/
def Terminates (rung : ι → Nat) (body : Family α → Family α) (name : ι) (parser : Parser (α name)) :
    Prop :=
  ∃ (family : Family α) (height : Nat), family name = parser ∧ Descends rung body family ∧
    (∀ name, rung name < height) ∧
    ∀ (bottom : Family α) (rounds : Nat) (start : Cursor),
      start.ahead.length * height + rung name < rounds →
        body^[rounds] bottom name start = parser start

/-- A recursion that descends is unrolled no more often than tokens and rungs allow. -/
theorem Descends.terminates (hdescends : Descends rung body family) {height : Nat}
    (hheight : ∀ name, rung name < height) {name : ι} {parser : Parser (α name)}
    (hparser : family name = parser) : Terminates rung body name parser := by
  subst hparser
  exact ⟨family, height, rfl, hdescends, hheight, fun bottom _ _ => hdescends.unrolled hheight bottom⟩

end ODataOptions.Parser
