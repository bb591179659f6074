import ODataOptions.Proofs.Parser.Passes
import ODataOptions.Proofs.Parser.Progress

/-!
# Where parsers leave the cursor

Whether it succeeds or not, a parser leaves the cursor behind words that it has passed, with as many levels
open as before.  It never goes back, and never beyond the end of the input.
-/

namespace ODataOptions

namespace Cursor

variable {cursor middle rest : Cursor} {words more : List Word}

theorem advance_of_end (hend : cursor.current.kind = .endOfInput) : cursor.advance = cursor := by
  obtain ⟨consumed, ahead, depth⟩ := cursor
  cases ahead with
  | nil => rfl
  | cons token ahead => exact if_pos hend

theorem Passes.trans (hfirst : cursor.Passes words middle) (hsecond : middle.Passes more rest) :
    cursor.Passes (words ++ more) rest := by
  induction hfirst with
  | nil => exact hsecond
  | cons hword hkind _ ih => exact .cons hword hkind (ih hsecond)

theorem Passes.current_word {word : Word} (hpasses : cursor.Passes (word :: words) rest) :
    cursor.current.word = word := by
  cases hpasses with
  | cons hword _ _ => exact hword

theorem Passes.isA_current {word : Word} (hpasses : cursor.Passes (word :: words) rest)
    (kind : TokenKind) : cursor.current.isA kind = word.isA kind := by
  rw [← Token.isA_word, hpasses.current_word]

/-- Before the same words, the current tokens are the same word. -/
theorem Passes.current_word_eq {cursor' rest' : Cursor} {word : Word}
    (hpasses : cursor.Passes (word :: words) rest) (hpasses' : cursor'.Passes (word :: words) rest') :
    cursor.current.word = cursor'.current.word :=
  hpasses.current_word.trans hpasses'.current_word.symm

theorem Passes.advance {word : Word} (hpasses : cursor.Passes (word :: words) rest) :
    cursor.advance.Passes words rest := by
  cases hpasses with
  | cons _ _ hrest => exact hrest

theorem Passes.eq_of_nil (hpasses : cursor.Passes [] rest) : cursor = rest := by
  cases hpasses with
  | nil => rfl

/-- Nothing is passed from the end of the input. -/
theorem Passes.eq_of_end (hpasses : cursor.Passes words rest)
    (hend : cursor.current.kind = .endOfInput) : cursor = rest := by
  cases hpasses with
  | nil => rfl
  | cons hword hkind _ =>
    rw [← hword] at hkind
    exact absurd hend hkind

/-- Each word takes one of the tokens ahead. -/
theorem Passes.length_add (hpasses : cursor.Passes words rest) :
    words.length + rest.ahead.length = cursor.ahead.length := by
  induction hpasses with
  | nil => exact Nat.zero_add _
  | @cons cursor rest word words hword hkind hrest ih =>
    rw [← hword, Token.word_kind] at hkind
    rw [ahead_of_current hkind, List.length_cons, List.length_cons, ← ih]
    omega

theorem position_advance (hkind : cursor.current.kind ≠ .endOfInput) :
    cursor.advance.position = cursor.position + 1 := by
  obtain ⟨consumed, ahead, depth⟩ := cursor
  cases ahead with
  | nil => exact absurd rfl hkind
  | cons token ahead =>
    have hother : token.kind ≠ .endOfInput := hkind
    simp [advance, position, hother]

/-- Each word is consumed. -/
theorem Passes.position_eq (hpasses : cursor.Passes words rest) :
    rest.position = cursor.position + words.length := by
  induction hpasses with
  | nil => rfl
  | cons hword hkind _ ih =>
    rw [← hword, Token.word_kind] at hkind
    rw [ih, position_advance hkind, List.length_cons]
    omega

/-- Nothing is passed on the way to a cursor with as many tokens ahead. -/
theorem Passes.eq_nil (hpasses : cursor.Passes words rest)
    (hle : cursor.ahead.length ≤ rest.ahead.length) : words = [] := by
  have hlength := hpasses.length_add
  exact List.length_eq_zero_iff.mp (by omega)

/-- The words between two cursors are determined by them. -/
theorem Passes.unique (hwords : cursor.Passes words rest) (hmore : cursor.Passes more rest) :
    words = more := by
  induction hwords generalizing more with
  | nil => exact (hmore.eq_nil (Nat.le_refl _)).symm
  | @cons cursor rest word words hword hkind hrest ih =>
    cases hmore with
    | nil => cases (Passes.cons hword hkind hrest).eq_nil (Nat.le_refl _)
    | cons hother _ hrest' => rw [← hword, ← hother, ih hrest']

/-- Of two cursors on the way, one comes before the other. -/
theorem Passes.total (hfirst : cursor.Passes words middle) (hsecond : cursor.Passes more rest) :
    (∃ between, middle.Passes between rest) ∨ ∃ between, rest.Passes between middle := by
  induction hfirst generalizing more with
  | nil => exact .inl ⟨more, hsecond⟩
  | cons hword hkind hrest ih =>
    cases hsecond with
    | nil => exact .inr ⟨_, .cons hword hkind hrest⟩
    | cons _ _ hrest' => exact ih hrest'

/-- A cursor on the way is determined by how many tokens it has ahead. -/
theorem Passes.eq_of_length (hfirst : cursor.Passes words middle) (hsecond : cursor.Passes more rest)
    (hlength : middle.ahead.length = rest.ahead.length) : middle = rest := by
  rcases hfirst.total hsecond with ⟨between, hbetween⟩ | ⟨between, hbetween⟩
  · rw [hbetween.eq_nil (Nat.le_of_eq hlength)] at hbetween
    exact hbetween.eq_of_nil
  · rw [hbetween.eq_nil (Nat.le_of_eq hlength.symm)] at hbetween
    exact hbetween.eq_of_nil.symm

/-- There is one end of the input. -/
theorem Passes.end_unique (hfirst : cursor.Passes words middle) (hsecond : cursor.Passes more rest)
    (hend : middle.current.kind = .endOfInput) (hend' : rest.current.kind = .endOfInput) :
    middle = rest := by
  rcases hfirst.total hsecond with ⟨between, hbetween⟩ | ⟨between, hbetween⟩
  · exact hbetween.eq_of_end hend
  · exact (hbetween.eq_of_end hend').symm

/-- The current token is passed, unless it is the end of the input. -/
theorem exists_passes_advance (cursor : Cursor) : ∃ words, cursor.Passes words cursor.advance := by
  by_cases hend : cursor.current.kind = .endOfInput
  · rw [advance_of_end hend]
    exact ⟨[], .nil cursor⟩
  · exact ⟨_, .cons rfl hend (.nil _)⟩

end Cursor

namespace Parser

variable {α β σ : Type}

/-- Where the parser leaves the cursor, whatever the outcome. -/
def final (parser : Parser α) (cursor : Cursor) : Cursor :=
  match parser cursor with
  | .ok _ rest | .error _ rest => rest

theorem final_of_ok {parser : Parser α} {cursor rest : Cursor} {value : α}
    (hrun : parser cursor = .ok value rest) : final parser cursor = rest := by
  rw [final, hrun]

/-- Wherever it starts, the parser leaves the cursor behind words that it has passed. -/
def Moves (parser : Parser α) : Prop :=
  ∀ cursor : Cursor, ∃ words, cursor.Passes words (final parser cursor)

theorem Moves.passes {parser : Parser α} (hparser : Moves parser) {cursor rest : Cursor} {value : α}
    (hrun : parser cursor = .ok value rest) : ∃ words, cursor.Passes words rest := by
  rw [← final_of_ok hrun]
  exact hparser cursor

/-- No parser leaves more tokens ahead than it found. -/
theorem Moves.length_le {parser : Parser α} (hparser : Moves parser) {cursor rest : Cursor} {value : α}
    (hrun : parser cursor = .ok value rest) : rest.ahead.length ≤ cursor.ahead.length := by
  obtain ⟨words, hpasses⟩ := hparser.passes hrun
  rw [← hpasses.length_add]
  exact Nat.le_add_left _ _

/-! ## Sequencing -/

theorem moves_of_final {parser : Parser α} (hfinal : ∀ cursor, final parser cursor = cursor) :
    Moves parser := by
  intro cursor
  rw [hfinal]
  exact ⟨[], .nil cursor⟩

theorem moves_pure (value : α) : Moves (pure value) := moves_of_final fun _ => rfl

theorem moves_throw (fault : Fault) : Moves (throw fault : Parser α) := moves_of_final fun _ => rfl

theorem moves_failHere (problem : Problem) : Moves (failHere problem : Parser α) :=
  moves_of_final fun _ => rfl

theorem moves_unexpected (expected : String) : Moves (unexpected expected : Parser α) :=
  moves_of_final fun _ => rfl

theorem moves_ofExcept (result : Except Fault α) : Moves (ofExcept result) := by
  cases result with
  | ok value => exact moves_pure value
  | error fault => exact moves_throw fault

theorem moves_get : Moves get := moves_of_final fun _ => rfl

theorem moves_current : Moves current := moves_of_final fun _ => rfl

theorem Moves.bind {parser : Parser α} {next : α → Parser β} (hparser : Moves parser)
    (hnext : ∀ value, Moves (next value)) : Moves (parser >>= next) := by
  intro cursor
  have hfirst := hparser cursor
  rw [final] at hfirst ⊢
  rw [bind_run]
  cases hrun : parser cursor with
  | error fault middle =>
    rw [hrun] at hfirst
    exact hfirst
  | ok value middle =>
    rw [hrun] at hfirst
    obtain ⟨words, hwords⟩ := hfirst
    obtain ⟨more, hmore⟩ := hnext value middle
    exact ⟨words ++ more, hwords.trans hmore⟩

theorem Moves.map {parser : Parser α} (hparser : Moves parser) (f : α → β) :
    Moves (parser >>= fun value => pure (f value)) := by
  apply hparser.bind
  intro value
  exact moves_pure (f value)

/-! ## Tokens -/

theorem moves_takeIf (test : Token → Bool) : Moves (takeIf test) := by
  intro cursor
  rw [final, takeIf_run]
  split
  · next hrun =>
    split at hrun
    · cases hrun
      exact cursor.exists_passes_advance
    · cases hrun
      exact ⟨[], .nil cursor⟩
  · next hrun => split at hrun <;> cases hrun

theorem moves_accept (kind : TokenKind) : Moves (accept kind) := (moves_takeIf _).map _

theorem moves_acceptWord (word : String) : Moves (acceptWord word) := (moves_takeIf _).map _

theorem moves_next : Moves next := moves_current.bind fun _ => (moves_takeIf _).map _

theorem moves_expect (kind : TokenKind) : Moves (expect kind) := by
  apply (moves_takeIf _).bind
  intro token?
  cases token? with
  | none => exact moves_unexpected _
  | some token => exact moves_pure token

theorem Moves.nested {parser : Parser α} (hparser : Moves parser) (limit : Nat) :
    Moves (nested limit parser) := by
  intro cursor
  have hclose : ∀ {last : Cursor},
      (∃ words, Cursor.Passes { cursor with depth := cursor.depth + 1 } words last) →
        ∃ words, cursor.Passes words { last with depth := last.depth - 1 } := by
    rintro last ⟨words, hpasses⟩
    have hdepth : last.depth - 1 = cursor.depth := by
      rw [hpasses.depth_eq, Nat.add_sub_cancel]
    rw [hdepth]
    exact ⟨words, hpasses.withDepth cursor.depth⟩
  have hinner := hparser { cursor with depth := cursor.depth + 1 }
  rw [final] at hinner ⊢
  rw [Parser.nested]
  by_cases hlimit : limit ≤ cursor.depth
  · rw [if_pos hlimit]
    exact ⟨[], .nil cursor⟩
  · rw [if_neg hlimit]
    cases hrun : parser { cursor with depth := cursor.depth + 1 } with
    | ok value last =>
      rw [hrun] at hinner
      exact hclose hinner
    | error fault last =>
      rw [hrun] at hinner
      exact hclose hinner

/-! ## Loops -/

theorem moves_iterateUpTo {step : σ → Parser (Option σ)} (hstep : ∀ state, Moves (step state))
    (rounds : Nat) (state : σ) : Moves (iterateUpTo step rounds state) := by
  induction rounds generalizing state with
  | zero => exact moves_pure state
  | succ rounds ih =>
    apply (hstep state).bind
    intro next?
    cases next? with
    | none => exact moves_pure state
    | some next => exact ih next

theorem moves_iterate {step : σ → Parser (Option σ)} (hstep : ∀ state, Moves (step state))
    (state : σ) : Moves (iterate step state) := by
  apply moves_get.bind
  intro _
  exact moves_iterateUpTo hstep _ state

theorem moves_unfoldUpTo {step : σ → Parser (α × Option σ)} (hstep : ∀ state, Moves (step state))
    (rounds : Nat) (state : σ) : Moves (unfoldUpTo step rounds state) := by
  induction rounds generalizing state with
  | zero => exact moves_pure []
  | succ rounds ih =>
    apply (hstep state).bind
    rintro ⟨value, next?⟩
    cases next? with
    | none => exact moves_pure [value]
    | some next => exact (ih next).map _

theorem moves_unfold {step : σ → Parser (α × Option σ)} (hstep : ∀ state, Moves (step state))
    (state : σ) : Moves (unfold step state) := by
  apply moves_get.bind
  intro _
  exact moves_unfoldUpTo hstep _ state

/-! ## Consuming -/

/-- Where it succeeds, the parser has consumed a token. -/
def Consumes (parser : Parser α) : Prop :=
  ∀ ⦃cursor value rest⦄, parser cursor = .ok value rest → rest.ahead.length < cursor.ahead.length

theorem Consumes.bind {parser : Parser α} {next : α → Parser β} (hparser : Consumes parser)
    (hnext : ∀ value, Moves (next value)) : Consumes (parser >>= next) := by
  intro cursor value rest hrun
  obtain ⟨first, middle, hfirst, hsecond⟩ := bind_eq_ok_iff.mp hrun
  exact Nat.lt_of_le_of_lt ((hnext first).length_le hsecond) (hparser hfirst)

theorem consumes_expect {kind : TokenKind} (hkind : kind ≠ .endOfInput) : Consumes (expect kind) := by
  intro cursor value rest hrun
  rw [expect_run] at hrun
  split at hrun
  · next hisA =>
    cases hrun
    exact Cursor.ahead_advance_lt (Token.kind_ne_endOfInput_of_isA hkind hisA)
  · cases hrun

theorem Consumes.nested {parser : Parser α} (hparser : Consumes parser) (limit : Nat) :
    Consumes (nested limit parser) := by
  intro cursor value rest hrun
  rw [Parser.nested] at hrun
  split at hrun
  · cases hrun
  · cases hinner : parser { cursor with depth := cursor.depth + 1 } with
    | error fault last =>
      rw [hinner] at hrun
      cases hrun
    | ok found last =>
      rw [hinner] at hrun
      cases hrun
      have hlt := hparser hinner
      exact hlt

theorem Consumes.unfold {step : σ → Parser (α × Option σ)} (hstep : ∀ state, Consumes (step state))
    (hmoves : ∀ state, Moves (step state)) (state : σ) : Consumes (unfold step state) := by
  intro cursor values rest hrun
  have hrounds : Consumes (unfoldUpTo step (cursor.ahead.length + 1) state) := by
    apply (hstep state).bind
    rintro ⟨value, next?⟩
    cases next? with
    | none => exact moves_pure [value]
    | some next => exact (moves_unfoldUpTo hmoves _ next).map _
  exact hrounds hrun

theorem consumes_failHere (problem : Problem) : Consumes (failHere problem : Parser α) := by
  intro cursor value rest hrun
  cases hrun

/-- Where it succeeds with a value from which a loop goes on, the parser has consumed a token. -/
def Progresses (goesOn : α → Prop) (parser : Parser α) : Prop :=
  ∀ ⦃cursor value rest⦄, parser cursor = .ok value rest → goesOn value →
    rest.ahead.length < cursor.ahead.length

theorem consumes_of_progresses {parser : Parser α} (hparser : Progresses (fun _ => True) parser) :
    Consumes parser :=
  fun _ _ _ hrun => hparser hrun trivial

section Progresses

variable {goesOn : α → Prop}

theorem Consumes.progresses {parser : Parser α} (hparser : Consumes parser) :
    Progresses goesOn parser :=
  fun _ _ _ hrun _ => hparser hrun

theorem progresses_pure {value : α} (hends : ¬ goesOn value) : Progresses goesOn (pure value) := by
  intro cursor _ rest hrun hgoesOn
  cases hrun
  exact absurd hgoesOn hends

/-- A sequence progresses if its second part does, as long as the first one moves. -/
theorem Moves.bind_progresses {parser : Parser β} {next : β → Parser α} (hparser : Moves parser)
    (hnext : ∀ value, Progresses goesOn (next value)) : Progresses goesOn (parser >>= next) := by
  intro cursor value rest hrun hgoesOn
  obtain ⟨first, middle, hfirst, hsecond⟩ := bind_eq_ok_iff.mp hrun
  exact Nat.lt_of_lt_of_le (hnext first hsecond hgoesOn) (hparser.length_le hfirst)

theorem Moves.bind_consumes {parser : Parser β} {next : β → Parser α} (hparser : Moves parser)
    (hnext : ∀ value, Consumes (next value)) : Consumes (parser >>= next) := by
  exact consumes_of_progresses (hparser.bind_progresses fun value => (hnext value).progresses)

/-- What is found has been consumed, and where nothing is found the rest progresses. -/
theorem Progresses.bind_option {parser : Parser (Option β)} {next : Option β → Parser α}
    (hparser : Progresses (·.isSome) parser) (hmoves : Moves parser)
    (hsome : ∀ value, Moves (next (some value))) (hnone : Progresses goesOn (next none)) :
    Progresses goesOn (parser >>= next) := by
  intro cursor value rest hrun hgoesOn
  obtain ⟨found, middle, hstart, hsecond⟩ := bind_eq_ok_iff.mp hrun
  cases found with
  | none => exact Nat.lt_of_lt_of_le (hnone hsecond hgoesOn) (hmoves.length_le hstart)
  | some first => exact Nat.lt_of_le_of_lt ((hsome first).length_le hsecond) (hparser hstart rfl)

/-- A choice that consumes a token may be followed by anything that moves. -/
theorem Progresses.bind_bool {parser : Parser Bool} {next : Bool → Parser α}
    (hparser : Progresses (· = true) parser) (hmoves : Moves parser)
    (htrue : Moves (next true)) (hfalse : Progresses goesOn (next false)) :
    Progresses goesOn (parser >>= next) := by
  intro cursor value rest hrun hgoesOn
  obtain ⟨found, middle, hstart, hsecond⟩ := bind_eq_ok_iff.mp hrun
  cases found with
  | false => exact Nat.lt_of_lt_of_le (hfalse hsecond hgoesOn) (hmoves.length_le hstart)
  | true => exact Nat.lt_of_le_of_lt (htrue.length_le hsecond) (hparser hstart rfl)

theorem progresses_unexpected (expected : String) :
    Progresses goesOn (unexpected expected : Parser α) := by
  intro cursor value rest hrun
  cases hrun

theorem progresses_takeIf {test : Token → Bool}
    (htest : ∀ token, test token = true → token.kind ≠ .endOfInput) :
    Progresses (·.isSome) (takeIf test) := by
  intro cursor found rest hrun hfound
  rw [takeIf_run] at hrun
  split at hrun
  · next hcurrent =>
    cases hrun
    exact Cursor.ahead_advance_lt (htest _ hcurrent)
  · cases hrun
    cases hfound

theorem progresses_accept {kind : TokenKind} (hkind : kind ≠ .endOfInput) :
    Progresses (· = true) (accept kind) := by
  have htake : Progresses (·.isSome) (take? kind) :=
    progresses_takeIf fun _ => Token.kind_ne_endOfInput_of_isA hkind
  exact htake.bind_option (moves_takeIf _) (fun _ => moves_pure _) (progresses_pure Bool.false_ne_true)

theorem progresses_acceptWord (word : String) : Progresses (· = true) (acceptWord word) := by
  have htake : Progresses (·.isSome) (takeIf (·.isWord word)) := by
    apply progresses_takeIf
    intro token hword hend
    simp [Token.isWord, hend] at hword
  exact htake.bind_option (moves_takeIf _) (fun _ => moves_pure _) (progresses_pure Bool.false_ne_true)

theorem progresses_oneOfWords (word : β → String) (meanings : List β) :
    Progresses (·.isSome) (oneOfWords word meanings) := by
  induction meanings with
  | nil => exact progresses_pure Bool.false_ne_true
  | cons meaning meanings ih =>
    exact (progresses_acceptWord (word meaning)).bind_bool (moves_acceptWord _) (moves_pure _) ih

end Progresses

/-! ## Whole loops -/

section Iterate

variable {step : σ → Parser (Option σ)} (hprogress : ∀ state, Progresses (·.isSome) (step state))

include hprogress

/-- Rounds beyond those that the tokens ahead allow for make no difference. -/
theorem iterateUpTo_eq_of_lt {rounds rounds' : Nat} {state : σ} {cursor : Cursor}
    (hrounds : cursor.ahead.length < rounds) (hrounds' : cursor.ahead.length < rounds') :
    iterateUpTo step rounds state cursor = iterateUpTo step rounds' state cursor := by
  induction rounds generalizing rounds' state cursor with
  | zero => exact absurd hrounds (Nat.not_lt_zero _)
  | succ rounds ih =>
    obtain ⟨rounds', rfl⟩ := Nat.exists_eq_succ_of_ne_zero (Nat.ne_zero_of_lt hrounds')
    rw [iterateUpTo, iterateUpTo, bind_run, bind_run]
    cases hstep : step state cursor with
    | error => rfl
    | ok next? rest =>
      cases next? with
      | none => rfl
      | some next =>
        have hlt : rest.ahead.length < cursor.ahead.length := hprogress state hstep rfl
        exact ih (by omega) (by omega)

/-- The first step of a loop, and then the loop from the state that it leads to. -/
theorem iterate_run (state : σ) (cursor : Cursor) :
    iterate step state cursor =
      match step state cursor with
      | .ok (some next) rest => iterate step next rest
      | .ok none rest => .ok state rest
      | .error fault rest => .error fault rest := by
  change iterateUpTo step (cursor.ahead.length + 1) state cursor = _
  rw [iterateUpTo, bind_run]
  cases hstep : step state cursor with
  | error => rfl
  | ok next? rest =>
    cases next? with
    | none => rfl
    | some next =>
      have hlt : rest.ahead.length < cursor.ahead.length := hprogress state hstep rfl
      exact iterateUpTo_eq_of_lt hprogress hlt (Nat.lt_succ_self _)

end Iterate

/-- Behind a separator, a token has been consumed. -/
theorem progresses_stepBehind? {step : σ → Parser σ} (hstep : ∀ state, Moves (step state))
    {separator : TokenKind} (hseparator : separator ≠ .endOfInput) (state : σ) :
    Progresses (·.isSome) (stepBehind? step separator state) :=
  (progresses_accept hseparator).bind_bool (moves_accept separator) ((hstep state).map some)
    (progresses_pure Bool.false_ne_true)

/-- The first step, and then the others if a separator stands behind it. -/
theorem separatedFrom_run {step : σ → Parser σ} (hstep : ∀ state, Moves (step state))
    {separator : TokenKind} (hseparator : separator ≠ .endOfInput) (state : σ) (cursor : Cursor) :
    separatedFrom step separator state cursor =
      match step state cursor with
      | .ok next rest =>
        if rest.current.isA separator then separatedFrom step separator next rest.advance
        else .ok next rest
      | .error fault rest => .error fault rest := by
  rw [separatedFrom, bind_run]
  cases step state cursor with
  | error fault rest => rfl
  | ok next rest =>
    dsimp only
    rw [iterate_run (progresses_stepBehind? hstep hseparator), stepBehind?, bind_run, accept_run]
    by_cases hfound : rest.current.isA separator = true
    · rw [if_pos hfound, if_pos hfound, separatedFrom, bind_run]
      dsimp only
      rw [if_pos rfl, bind_run]
      cases step next rest.advance <;> rfl
    · rw [if_neg hfound, if_neg hfound]
      rfl

section Unfold

variable {step : σ → Parser (α × Option σ)}
  (hprogress : ∀ state, Progresses (·.2.isSome) (step state))

include hprogress

/-- Rounds beyond those that the tokens ahead allow for make no difference. -/
theorem unfoldUpTo_eq_of_lt {rounds rounds' : Nat} {state : σ} {cursor : Cursor}
    (hrounds : cursor.ahead.length < rounds) (hrounds' : cursor.ahead.length < rounds') :
    unfoldUpTo step rounds state cursor = unfoldUpTo step rounds' state cursor := by
  induction rounds generalizing rounds' state cursor with
  | zero => exact absurd hrounds (Nat.not_lt_zero _)
  | succ rounds ih =>
    obtain ⟨rounds', rfl⟩ := Nat.exists_eq_succ_of_ne_zero (Nat.ne_zero_of_lt hrounds')
    rw [unfoldUpTo, unfoldUpTo, bind_run, bind_run]
    cases hstep : step state cursor with
    | error => rfl
    | ok result rest =>
      obtain ⟨value, next?⟩ := result
      cases next? with
      | none => rfl
      | some next =>
        have hlt : rest.ahead.length < cursor.ahead.length := hprogress state hstep rfl
        have hsame : unfoldUpTo step rounds next rest = unfoldUpTo step rounds' next rest :=
          ih (by omega) (by omega)
        dsimp only
        rw [bind_run, bind_run, hsame]

/-- The first step of a loop, and then the loop from the state that it leaves. -/
theorem unfold_run (state : σ) (cursor : Cursor) :
    unfold step state cursor =
      match step state cursor with
      | .ok (value, some next) rest => (return value :: (← unfold step next)) rest
      | .ok (value, none) rest => .ok [value] rest
      | .error fault rest => .error fault rest := by
  change unfoldUpTo step (cursor.ahead.length + 1) state cursor = _
  rw [unfoldUpTo, bind_run]
  cases hstep : step state cursor with
  | error => rfl
  | ok result rest =>
    obtain ⟨value, next?⟩ := result
    cases next? with
    | none => rfl
    | some next =>
      have hlt : rest.ahead.length < cursor.ahead.length := hprogress state hstep rfl
      have hsame : unfold step next rest = unfoldUpTo step cursor.ahead.length next rest :=
        unfoldUpTo_eq_of_lt hprogress (Nat.lt_succ_self _) hlt
      dsimp only
      rw [bind_run, bind_run, hsame]

end Unfold

/-- The first item of a list, and the others if a separator stands behind it. -/
theorem separated_run {item : Parser α} (hitem : Moves item) {separator : TokenKind}
    (hseparator : separator ≠ .endOfInput) (cursor : Cursor) :
    separated item separator cursor =
      match item cursor with
      | .ok value rest =>
        if rest.current.isA separator then
          (return value :: (← separated item separator)) rest.advance
        else .ok [value] rest
      | .error fault rest => .error fault rest := by
  have hprogress : ∀ _ : Unit, Progresses (·.2.isSome)
      (do return (← item, if ← accept separator then some () else none)) := by
    intro _
    apply hitem.bind_progresses
    intro value
    exact (progresses_accept hseparator).bind_bool (moves_accept _) (moves_pure _)
      (progresses_pure Bool.false_ne_true)
  rw [separated, unfold_run hprogress, bind_run]
  cases item cursor with
  | error fault last => rfl
  | ok value behind =>
    dsimp only
    rw [bind_run, accept_run]
    by_cases hfound : behind.current.isA separator = true
    · rw [if_pos hfound, if_pos hfound]
      rfl
    · rw [if_neg hfound, if_neg hfound]
      rfl

end Parser

end ODataOptions
