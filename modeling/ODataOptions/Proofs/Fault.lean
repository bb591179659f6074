import ODataOptions.Fault.Basic

/-!
# Results that may be faults

How a result comes about, with a fault and without one.
-/

namespace ODataOptions.Fault

variable {α β : Type}

theorem bind_eq_ok_iff {first : Except Fault α} {next : α → Except Fault β} {value : β} :
    (first >>= next) = .ok value ↔ ∃ middle, first = .ok middle ∧ next middle = .ok value := by
  cases first <;> simp [bind, Except.bind]

/-- A sequence fails with its first part, or with the second one behind a value. -/
theorem bind_eq_error_iff {first : Except Fault α} {next : α → Except Fault β} {fault : Fault} :
    (first >>= next) = .error fault ↔
      first = .error fault ∨ ∃ middle, first = .ok middle ∧ next middle = .error fault := by
  cases first <;> simp [bind, Except.bind]

/-- A fold that fails does so at the first item that its step fails at. -/
theorem exists_of_foldlM_eq_error {step : β → α → Except Fault β} {items : List α} {start : β}
    {fault : Fault} (hfails : items.foldlM step start = .error fault) :
    ∃ before item after state, items = before ++ item :: after ∧
      before.foldlM step start = .ok state ∧ step state item = .error fault := by
  induction items generalizing start with
  | nil => cases hfails
  | cons first items ih =>
    rw [List.foldlM_cons] at hfails
    rcases bind_eq_error_iff.mp hfails with hstep | ⟨middle, hstep, hrest⟩
    · exact ⟨[], first, items, start, rfl, rfl, hstep⟩
    · obtain ⟨before, item, after, state, rfl, hbefore, hitem⟩ := ih hrest
      refine ⟨first :: before, item, after, state, rfl, ?_, hitem⟩
      rw [List.foldlM_cons, hstep]
      exact hbefore

theorem exists_ok_of_isOk {result : Except Fault α} (hok : result.isOk = true) :
    ∃ value, result = .ok value := by
  cases result with
  | error => cases hok
  | ok value => exact ⟨value, rfl⟩

theorem exists_error_of_isOk {result : Except Fault α} (hok : result.isOk = false) :
    ∃ fault, result = .error fault := by
  cases result with
  | error fault => exact ⟨fault, rfl⟩
  | ok => cases hok

theorem exists_ok_of_any {result : Except Fault α} {P : α → Bool}
    (hany : result.toOption.any P = true) : ∃ value, result = .ok value ∧ P value = true := by
  cases result with
  | error => cases hany
  | ok value => exact ⟨value, rfl, hany⟩

end ODataOptions.Fault
