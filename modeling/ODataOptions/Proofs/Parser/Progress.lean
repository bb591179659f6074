import ODataOptions.Proofs.Parser.Runs

/-!
# Progress of parsers

A parser never moves a cursor back.  A loop whose rounds consume a token each is therefore not cut
short: it goes on until its step is declined.
-/

namespace ODataOptions

namespace Cursor

variable (cursor : Cursor)

theorem ahead_advance_le : cursor.advance.ahead.length ≤ cursor.ahead.length := by
  rw [advance]
  split
  · next token rest hahead =>
    split
    · exact Nat.le_refl _
    · rw [hahead]
      exact Nat.le_succ _
  · exact Nat.le_refl _

/-- Only the end of the input is not passed. -/
theorem ahead_advance_lt {cursor : Cursor} (hkind : cursor.current.kind ≠ .endOfInput) :
    cursor.advance.ahead.length < cursor.ahead.length := by
  rw [advance]
  rw [current] at hkind
  cases hahead : cursor.ahead with
  | nil =>
    rw [hahead] at hkind
    exact absurd rfl hkind
  | cons token rest =>
    rw [hahead] at hkind
    simp [hkind]

end Cursor

namespace Parser

variable {α β σ : Type}

/-- The parser leaves no more tokens ahead than it has found. -/
def Forward (parser : Parser α) : Prop :=
  ∀ ⦃cursor value rest⦄, parser cursor = .ok value rest → rest.ahead.length ≤ cursor.ahead.length

theorem forward_pure (value : α) : Forward (pure value) := by
  intro cursor _ rest hrun
  cases hrun
  exact Nat.le_refl _

theorem forward_throw (fault : Fault) : Forward (throw fault : Parser α) := by
  intro cursor value rest hrun
  cases hrun

theorem forward_takeIf (test : Token → Bool) : Forward (takeIf test) := by
  intro cursor value rest hrun
  rw [takeIf_run] at hrun
  split at hrun
  · cases hrun
    exact cursor.ahead_advance_le
  · cases hrun
    exact Nat.le_refl _

theorem Forward.bind {parser : Parser α} {next : α → Parser β} (hparser : Forward parser)
    (hnext : ∀ value, Forward (next value)) : Forward (parser >>= next) := by
  intro cursor value rest hrun
  obtain ⟨first, middle, hfirst, hsecond⟩ := bind_eq_ok_iff.mp hrun
  exact Nat.le_trans (hnext first hsecond) (hparser hfirst)

theorem forward_expect (kind : TokenKind) : Forward (expect kind) := by
  apply (forward_takeIf _).bind
  intro token?
  cases token? with
  | none =>
    intro cursor value rest hrun
    cases hrun
  | some token => exact forward_pure token

/-- Where each step that is taken consumes a token, a loop ends at a state at which the step is
declined.  An invariant of states and cursors holds there. -/
theorem iterate_declines {step : σ → Parser (Option σ)} {I : σ → Cursor → Prop}
    (hprogress : ∀ {state cursor next rest}, step state cursor = .ok (some next) rest →
      rest.ahead.length < cursor.ahead.length)
    (hstep : ∀ {state cursor next rest}, I state cursor →
      step state cursor = .ok (some next) rest → I next rest)
    {state last : σ} {cursor rest : Cursor} (hstart : I state cursor)
    (hrun : iterate step state cursor = .ok last rest) :
    ∃ before, I last before ∧ step last before = .ok none rest := by
  have hrounds : ∀ (rounds : Nat) {state cursor}, cursor.ahead.length < rounds → I state cursor →
      iterateUpTo step rounds state cursor = .ok last rest →
        ∃ before, I last before ∧ step last before = .ok none rest := by
    intro rounds
    induction rounds with
    | zero => exact fun hlength => absurd hlength (Nat.not_lt_zero _)
    | succ rounds ih =>
      intro state cursor hlength hstate hrun
      obtain ⟨next?, middle, hfirst, hrest⟩ := bind_eq_ok_iff.mp hrun
      cases next? with
      | none =>
        cases hrest
        exact ⟨cursor, hstate, hfirst⟩
      | some next =>
        exact ih (Nat.lt_of_lt_of_le (hprogress hfirst) (Nat.le_of_lt_succ hlength))
          (hstep hstate hfirst) hrest
  exact hrounds _ (Nat.lt_succ_self _) hstart hrun

end Parser

end ODataOptions
