import ODataOptions.Proofs.Parser.Runs

/-!
# Parsers under different limits

`Parser.Relaxes strict lax` says that a limit only ever stops the strict parser: wherever it is not
stopped by one, the lax parser has the same outcome, down to the fault and the cursor.  There is one
rule for each way to build a parser, so a grammar is followed rule by rule.
-/

namespace ODataOptions

namespace FaultKey

/-- The keys of the faults by which limits are enforced. -/
def ofLimits : List FaultKey := [.queryTooLong, .expandTooDeep, .expressionTooDeep]

end FaultKey

namespace Parser

variable {α β σ : Type}

/-- Either a limit stops the strict parser, or the lax one does the same. -/
def Relaxes (strict lax : Parser α) : Prop :=
  ∀ cursor, (∃ fault rest, strict cursor = .error fault rest ∧ fault.key ∈ FaultKey.ofLimits) ∨
    lax cursor = strict cursor

namespace Relaxes

theorem refl (parser : Parser α) : Relaxes parser parser := fun _ => .inr rfl

/-- A parser that fails because of a limit is relaxed by every other one. -/
theorem failHere {problem : Problem} (hlimit : problem.key ∈ FaultKey.ofLimits) (lax : Parser α) :
    Relaxes (failHere problem) lax :=
  fun cursor => .inl ⟨_, cursor, failHere_run cursor problem, hlimit⟩

theorem expressionTooDeep (limit : Nat) (lax : Parser α) :
    Relaxes (Parser.failHere (.expressionTooDeep limit)) lax :=
  failHere (.tail _ (.tail _ (.head _))) lax

theorem expandTooDeep (limit : Nat) (lax : Parser α) :
    Relaxes (Parser.failHere (.expandTooDeep limit)) lax :=
  failHere (.tail _ (.head _)) lax

/-- A limit that stops the first part stops the sequence. -/
theorem bind {strict lax : Parser β} {next next' : β → Parser α} (hfirst : Relaxes strict lax)
    (hnext : ∀ value, Relaxes (next value) (next' value)) :
    Relaxes (strict >>= next) (lax >>= next') := by
  intro cursor
  rw [bind_run, bind_run]
  rcases hfirst cursor with ⟨fault, rest, hrun, hlimit⟩ | hsame
  · rw [hrun]
    exact .inl ⟨fault, rest, rfl, hlimit⟩
  · rw [hsame]
    cases strict cursor with
    | error => exact .inr rfl
    | ok value rest => exact hnext value rest

/-- Behind a parser that no limit concerns. -/
theorem behind {parser : Parser β} {next next' : β → Parser α}
    (hnext : ∀ value, Relaxes (next value) (next' value)) :
    Relaxes (parser >>= next) (parser >>= next') :=
  (refl parser).bind hnext

/-- What follows may be the same in both. -/
theorem before {strict lax : Parser β} (hfirst : Relaxes strict lax) (next : β → Parser α) :
    Relaxes (strict >>= next) (lax >>= next) :=
  hfirst.bind fun value => refl (next value)

theorem ite {condition : Prop} [Decidable condition] {first first' second second' : Parser α}
    (hfirst : Relaxes first first') (hsecond : Relaxes second second') :
    Relaxes (if condition then first else second) (if condition then first' else second') := by
  by_cases hcondition : condition
  · rwa [if_pos hcondition, if_pos hcondition]
  · rwa [if_neg hcondition, if_neg hcondition]

/-- A level that the larger limit does not admit is not admitted by the smaller one either. -/
theorem nested {limit limit' : Nat} {strict lax : Parser α} (hle : limit ≤ limit')
    (hinner : Relaxes strict lax) : Relaxes (nested limit strict) (nested limit' lax) := by
  intro cursor
  rw [Parser.nested, Parser.nested]
  by_cases hlimit : limit ≤ cursor.depth
  · rw [if_pos hlimit]
    exact .inl ⟨_, cursor, failHere_run cursor _, .tail _ (.tail _ (.head _))⟩
  · rw [if_neg hlimit, if_neg fun h => hlimit (Nat.le_trans hle h)]
    rcases hinner { cursor with depth := cursor.depth + 1 } with ⟨fault, rest, hrun, hkey⟩ | hsame
    · rw [hrun]
      exact .inl ⟨fault, _, rfl, hkey⟩
    · rw [hsame]
      exact .inr rfl

section Loops

variable {step step' : σ → Parser (Option σ)}

theorem iterateUpTo (hstep : ∀ state, Relaxes (step state) (step' state)) (rounds : Nat)
    (state : σ) : Relaxes (iterateUpTo step rounds state) (iterateUpTo step' rounds state) := by
  induction rounds generalizing state with
  | zero => exact refl _
  | succ rounds ih =>
    apply (hstep state).bind
    intro next?
    cases next? with
    | none => exact refl _
    | some next => exact ih next

theorem iterate (hstep : ∀ state, Relaxes (step state) (step' state)) (state : σ) :
    Relaxes (iterate step state) (iterate step' state) := by
  apply behind
  intro _
  exact iterateUpTo hstep _ state

end Loops

theorem separatedFrom {step step' : σ → Parser σ} (hstep : ∀ state, Relaxes (step state) (step' state))
    (separator : TokenKind) (state : σ) :
    Relaxes (separatedFrom step separator state) (separatedFrom step' separator state) := by
  apply (hstep state).bind
  apply iterate
  intro state
  apply behind
  intro found
  cases found with
  | false => exact refl _
  | true => exact (hstep state).before _

theorem unfoldUpTo {step step' : σ → Parser (α × Option σ)}
    (hstep : ∀ state, Relaxes (step state) (step' state)) (rounds : Nat) (state : σ) :
    Relaxes (unfoldUpTo step rounds state) (unfoldUpTo step' rounds state) := by
  induction rounds generalizing state with
  | zero => exact refl _
  | succ rounds ih =>
    apply (hstep state).bind
    intro result
    obtain ⟨value, next?⟩ := result
    cases next? with
    | none => exact refl _
    | some next => exact (ih next).before _

theorem unfold {step step' : σ → Parser (α × Option σ)}
    (hstep : ∀ state, Relaxes (step state) (step' state)) (state : σ) :
    Relaxes (unfold step state) (unfold step' state) := by
  apply behind
  intro _
  exact unfoldUpTo hstep _ state

theorem separated {item item' : Parser α} (hitem : Relaxes item item') (separator : TokenKind) :
    Relaxes (separated item separator) (separated item' separator) := by
  apply unfold
  intro _
  exact hitem.before _

theorem chain {operand operand' : Parser α} (hoperand : Relaxes operand operand')
    (operator? : Parser (Option β)) (combine : β → α → α → Except Fault α) :
    Relaxes (chain operand operator? combine) (chain operand' operator? combine) := by
  apply hoperand.bind
  intro first
  refine iterate (fun left => ?_) first
  apply behind
  intro operator
  cases operator with
  | none => exact refl _
  | some operator => exact hoperand.before _

end Relaxes

end Parser

end ODataOptions
