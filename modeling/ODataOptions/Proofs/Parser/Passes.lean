import ODataOptions.Proofs.Token.Written

/-!
# Words ahead of a cursor

A cursor passes words one after another.  What comes behind them is known only as far as a condition
on the next word says.
-/

namespace ODataOptions

namespace Cursor

/-- Reading the words one after another leads from one cursor to the other. -/
inductive Passes : Cursor → List Word → Cursor → Prop
  | nil (cursor : Cursor) : Passes cursor [] cursor
  | cons {cursor rest : Cursor} {word : Word} {words : List Word}
      (hword : cursor.current.word = word) (hkind : word.kind ≠ .endOfInput)
      (hrest : Passes cursor.advance words rest) : Passes cursor (word :: words) rest

variable {cursor rest : Cursor} {words : List Word}

theorem Passes.append {more : List Word} (hpasses : Passes cursor (words ++ more) rest) :
    ∃ middle, Passes cursor words middle ∧ Passes middle more rest := by
  induction words generalizing cursor with
  | nil => exact ⟨cursor, .nil cursor, hpasses⟩
  | cons word words ih =>
    cases hpasses with
    | cons hword hkind hrest =>
      obtain ⟨middle, hwords, hmore⟩ := ih hrest
      exact ⟨middle, .cons hword hkind hwords, hmore⟩

theorem Passes.current_kind_ne (hpasses : Passes cursor words rest) (hne : words ≠ []) :
    cursor.current.kind ≠ .endOfInput := by
  cases hpasses with
  | nil => exact absurd rfl hne
  | cons hword hkind _ => rwa [← Token.word_kind, hword]

/-- Passing words opens no level. -/
theorem Passes.depth_eq (hpasses : Passes cursor words rest) : rest.depth = cursor.depth := by
  induction hpasses with
  | nil => rfl
  | cons _ _ _ ih => rw [ih, depth_advance]

theorem advance_withDepth (cursor : Cursor) (depth : Nat) :
    Cursor.advance { cursor with depth } = { cursor.advance with depth } := by
  obtain ⟨consumed, ahead, open'⟩ := cursor
  cases ahead with
  | nil => rfl
  | cons token ahead =>
    simp only [advance]
    split <;> rfl

/-- The open levels have no effect on the words ahead. -/
theorem Passes.withDepth (hpasses : Passes cursor words rest) (depth : Nat) :
    Passes { cursor with depth } words { rest with depth } := by
  induction hpasses with
  | nil => exact .nil _
  | cons hword hkind _ ih =>
    rw [← advance_withDepth] at ih
    exact .cons hword hkind ih

theorem ahead_of_current (hkind : cursor.current.kind ≠ .endOfInput) :
    cursor.ahead = cursor.current :: cursor.advance.ahead := by
  unfold current at hkind ⊢
  rw [advance]
  cases hahead : cursor.ahead with
  | nil =>
    rw [hahead] at hkind
    exact absurd rfl hkind
  | cons token ahead =>
    rw [hahead] at hkind
    simp [hkind]

theorem Passes.length_le (hpasses : Passes cursor words rest) :
    words.length ≤ cursor.ahead.length := by
  induction hpasses with
  | nil => exact Nat.zero_le _
  | cons hword hkind _ ih =>
    rw [← hword, Token.word_kind] at hkind
    rw [ahead_of_current hkind]
    exact Nat.succ_le_succ ih

/-- The token behind the current one is the one that a step leads to. -/
theorem peek_kind (hkind : cursor.current.kind ≠ .endOfInput) :
    cursor.peek.kind = cursor.advance.current.kind := by
  rw [peek, ahead_of_current hkind]
  generalize cursor.current = first
  rw [current]
  cases cursor.advance.ahead <;> rfl

/-- The tokens of a list are passed, up to the end of the input. -/
theorem passes_tokens {found : List Token} {stop : Nat}
    (hkinds : ∀ token ∈ found, token.kind ≠ .endOfInput)
    (hahead : cursor.ahead = found ++ [.endOfInput stop]) :
    ∃ rest : Cursor, rest.current = .endOfInput stop ∧
      Passes cursor (found.map Token.word) rest := by
  induction found generalizing cursor with
  | nil =>
    refine ⟨cursor, ?_, .nil cursor⟩
    rw [current, hahead]
    rfl
  | cons token found ih =>
    obtain ⟨htoken, hrest⟩ := List.forall_mem_cons.mp hkinds
    have hcurrent : cursor.current = token := by
      rw [current, hahead]
      rfl
    have hadvance : cursor.advance.ahead = found ++ [.endOfInput stop] := by
      rw [advance, hahead]
      simp [htoken]
    obtain ⟨rest, hend, hpasses⟩ := ih hrest hadvance
    refine ⟨rest, hend, .cons ?_ ?_ hpasses⟩
    · rw [hcurrent]
    · exact htoken

end Cursor

/-- The next word is the first of the words or, where there are none, one that may follow them. -/
def Ahead (words : List Word) (follow P : Word → Prop) : Prop :=
  match words with
  | [] => ∀ word, follow word → P word
  | word :: _ => P word

theorem ahead_true (words : List Word) (follow : Word → Prop) : Ahead words follow fun _ => True := by
  cases words with
  | nil => exact fun _ _ => trivial
  | cons => exact trivial

theorem Ahead.mono {words : List Word} {follow P Q : Word → Prop} (hahead : Ahead words follow P)
    (himp : ∀ word, P word → Q word) : Ahead words follow Q := by
  cases words with
  | nil => exact fun word hword => himp word (hahead word hword)
  | cons word => exact himp word hahead

theorem Ahead.follow_mono {words : List Word} {follow middle P : Word → Prop}
    (hahead : Ahead words middle P) (hfollow : ∀ word, follow word → middle word) :
    Ahead words follow P := by
  cases words with
  | nil => exact fun word hword => hahead word (hfollow word hword)
  | cons => exact hahead

/-- What holds of the next word, whatever follows, does so where more words come behind. -/
theorem Ahead.append {words : List Word} {follow P : Word → Prop}
    (hahead : Ahead words (fun _ => True) P) (more : List Word) :
    Ahead (words ++ more) follow P := by
  cases words with
  | nil =>
    cases more with
    | nil => exact fun word _ => hahead word trivial
    | cons word => exact hahead word trivial
  | cons => exact hahead

theorem Ahead.current {words : List Word} {follow P : Word → Prop} {cursor rest : Cursor}
    (hahead : Ahead words follow P) (hpasses : cursor.Passes words rest)
    (hfollow : follow rest.current.word) : P cursor.current.word := by
  cases hpasses with
  | nil => exact hahead _ hfollow
  | cons hword => exact hword ▸ hahead

end ODataOptions
