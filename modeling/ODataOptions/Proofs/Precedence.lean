import ODataOptions.Expression.Basic

/-!
# Precedences

An operator binds its operands more or less tightly.  Where an operand of some precedence is asked for,
one that holds together as tightly or more tightly may stand without parentheses.
-/

namespace ODataOptions

/-- The precedences, from the loosest to the tightest.  Those between negations and operands by
themselves are of expressions only. -/
inductive Precedence
  | disjunction
  | conjunction
  | negation
  | comparison
  | additive
  | multiplicative
  | primary
deriving DecidableEq, Repr

namespace Precedence

def rank : Precedence → Nat
  | disjunction => 0
  | conjunction => 1
  | negation => 2
  | comparison => 3
  | additive => 4
  | multiplicative => 5
  | primary => 6

instance : LE Precedence := ⟨fun loose tight => loose.rank ≤ tight.rank⟩

instance (loose tight : Precedence) : Decidable (loose ≤ tight) :=
  inferInstanceAs (Decidable (loose.rank ≤ tight.rank))

def tighter : Precedence → Precedence
  | disjunction => conjunction
  | conjunction => negation
  | negation => comparison
  | comparison => additive
  | additive => multiplicative
  | multiplicative | primary => primary

theorem rank_injective : Function.Injective rank := by
  intro first second hrank
  cases first <;> cases second <;> first | rfl | cases hrank

theorem le_primary (precedence : Precedence) : precedence ≤ primary := by
  cases precedence <;> decide

/-- Each precedence but the tightest is followed directly by the next tighter one. -/
theorem rank_tighter {precedence : Precedence} (hne : precedence ≠ primary) :
    precedence.tighter.rank = precedence.rank + 1 := by
  cases precedence <;> first | rfl | exact absurd rfl hne

/-- What holds at a precedence holds at a looser one, if it is handed down from each one between them
to the next. -/
theorem loosen {P : Precedence → Prop} {loose tight : Precedence} (hle : loose ≤ tight)
    (hstep : ∀ precedence, loose ≤ precedence → precedence ≠ primary →
      precedence.tighter ≤ tight → P precedence.tighter → P precedence)
    (htight : P tight) : P loose := by
  obtain ⟨distance, hdistance⟩ := Nat.exists_eq_add_of_le hle
  induction distance generalizing loose with
  | zero => rwa [← rank_injective hdistance]
  | succ distance ih =>
    have hne : loose ≠ primary := by
      rintro rfl
      cases tight <;> simp [rank] at hdistance <;> omega
    have hrank := rank_tighter hne
    have hnext : tight.rank = loose.tighter.rank + distance := by omega
    have hbetween : loose ≤ loose.tighter := Nat.le.intro hrank.symm
    have hbelow : loose.tighter ≤ tight := Nat.le.intro hnext.symm
    refine hstep loose (Nat.le_refl _) hne hbelow (ih hbelow (fun precedence hle => ?_) hnext)
    exact hstep precedence (Nat.le_trans hbetween hle)

end Precedence

end ODataOptions
