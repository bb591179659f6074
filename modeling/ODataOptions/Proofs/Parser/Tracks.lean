import Mathlib.Data.List.Forall2
import Mathlib.Data.Option.Basic
import ODataOptions.Parser.Text
import ODataOptions.Proofs.Parser.Runs
import ODataOptions.Proofs.Token.Respelling

/-!
# Two runs side by side

`Comparison.Tracks R parser parser'` says that the second parser keeps up with the first one: from
cursors that correspond, it accepts what the first one accepts, with values in the relation `R`, and
both stop at cursors that correspond.  In a strict comparison the second parser also fails where the
first one does, with a fault that corresponds.  What corresponds is told by the comparison.  There is
one rule for each way to build a parser, so a grammar is followed rule by rule.
-/

namespace ODataOptions

open ODataOptions.Parser

/-- How the inputs of two runs correspond. -/
structure Comparison where
  /-- Whether the second run has to fail where the first one does. -/
  strict : Prop
  /-- Tokens that stand at the same position of the two inputs. -/
  Tokens : Token → Token → Prop
  /-- Places that correspond. -/
  Places : Span → Span → Prop
  span : ∀ {token token'}, Tokens token token' → Places token.span token'.span
  cover : ∀ {first first' last last'}, Places first first' → Places last last' →
    Places (.cover first last) (.cover first' last')
  endOfInput_iff : ∀ {token token'}, Tokens token token' →
    (token.kind = .endOfInput ↔ token'.kind = .endOfInput)

namespace Cursor

/-- The cursor behind the current token stops where it did. -/
@[simp]
theorem stop_advance (cursor : Cursor) : cursor.advance.stop = cursor.stop := by
  unfold advance
  split
  · next token rest hahead =>
    split
    · rfl
    · cases rest with
      | nil => simp [stop, hahead]
      | cons next rest => simp [stop, hahead, List.getLast?_cons]
  · rfl

end Cursor

namespace Comparison

variable {C : Comparison} {α α' β β' γ γ' σ σ' : Type}

/-! ## Cursors -/

/-- Both cursors stand at the same position, and as many levels are open. -/
structure Cursors (C : Comparison) (cursor cursor' : Cursor) : Prop where
  consumed : List.Forall₂ C.Tokens cursor.consumed cursor'.consumed
  ahead : List.Forall₂ C.Tokens cursor.ahead cursor'.ahead
  stop : C.Tokens (.endOfInput cursor.stop) (.endOfInput cursor'.stop)
  depth : cursor.depth = cursor'.depth

namespace Cursors

variable {cursor cursor' : Cursor}

theorem current (hcursors : C.Cursors cursor cursor') : C.Tokens cursor.current cursor'.current := by
  unfold Cursor.current
  match cursor.ahead, cursor'.ahead, hcursors.ahead with
  | _, _, .nil => exact hcursors.stop
  | _, _, .cons htoken _ => exact htoken

theorem peek (hcursors : C.Cursors cursor cursor') : C.Tokens cursor.peek cursor'.peek := by
  unfold Cursor.peek
  match cursor.ahead, cursor'.ahead, hcursors.ahead with
  | _, _, .nil => exact hcursors.stop
  | _, _, .cons _ .nil => exact hcursors.stop
  | _, _, .cons _ (.cons htoken _) => exact htoken

theorem advance (hcursors : C.Cursors cursor cursor') :
    C.Cursors cursor.advance cursor'.advance := by
  have hstop : C.Tokens (.endOfInput cursor.advance.stop) (.endOfInput cursor'.advance.stop) := by
    simpa using hcursors.stop
  have hdepth : cursor.advance.depth = cursor'.advance.depth := by
    simpa using hcursors.depth
  have hlists : List.Forall₂ C.Tokens cursor.advance.consumed cursor'.advance.consumed ∧
      List.Forall₂ C.Tokens cursor.advance.ahead cursor'.advance.ahead := by
    unfold Cursor.advance
    match hahead : cursor.ahead, hahead' : cursor'.ahead, hcursors.ahead with
    | [], [], .nil => simpa [hahead, hahead'] using hcursors.consumed
    | token :: rest, token' :: rest', .cons htoken hrest =>
      by_cases hend : token.kind = .endOfInput
      · simpa [hend, (C.endOfInput_iff htoken).mp hend] using ⟨hcursors.consumed, hcursors.ahead⟩
      · have hend' := mt (C.endOfInput_iff htoken).mpr hend
        simpa [hend, hend'] using ⟨⟨htoken, hcursors.consumed⟩, hrest⟩
  exact ⟨hlists.1, hlists.2, hstop, hdepth⟩

/-- Both runs open or close as many levels. -/
theorem mapDepth (hcursors : C.Cursors cursor cursor') (f : Nat → Nat) :
    C.Cursors { cursor with depth := f cursor.depth } { cursor' with depth := f cursor'.depth } :=
  ⟨hcursors.consumed, hcursors.ahead, hcursors.stop, congrArg f hcursors.depth⟩

theorem position (hcursors : C.Cursors cursor cursor') : cursor.position = cursor'.position :=
  hcursors.consumed.length_eq

theorem previousSpan (hcursors : C.Cursors cursor cursor') :
    C.Places cursor.previousSpan cursor'.previousSpan := by
  unfold Cursor.previousSpan Cursor.previous?
  match cursor.consumed, cursor'.consumed, hcursors.consumed with
  | _, _, .nil => exact C.span hcursors.current
  | _, _, .cons htoken _ => exact C.span htoken

end Cursors

/-! ## Results -/

/-- A condition that holds in the second run where it does in the first one. -/
structure Entails (C : Comparison) (condition condition' : Prop) : Prop where
  forth : condition → condition'
  back : C.strict → condition' → condition

theorem Entails.of_iff {condition condition' : Prop} (hiff : condition ↔ condition') :
    C.Entails condition condition' :=
  ⟨hiff.mp, fun _ => hiff.mpr⟩

/-- Tokens at the same position are both taken for one of the kind, or neither is. -/
def SameIsA (C : Comparison) (kind : TokenKind) : Prop :=
  ∀ token token', C.Tokens token token' → token.isA kind = token'.isA kind

/-- Tokens at the same position are both identifiers of exactly that text, or neither is. -/
def SameIsWord (C : Comparison) (word : String) : Prop :=
  ∀ token token', C.Tokens token token' → token.isWord word = token'.isWord word

/-- The same fault, at places that correspond. -/
structure Faults (C : Comparison) (fault fault' : Fault) : Prop where
  key : fault.key = fault'.key
  span : C.Places fault.span fault'.span
  related : Option.Rel (fun first first' => C.Places first.1 first'.1) fault.related fault'.related

/-- The second result keeps up with the first one. -/
inductive Results (C : Comparison) (R : α → α' → Prop) : Except Fault α → Except Fault α' → Prop
  | ok {value : α} {value' : α'} (hvalue : R value value') : C.Results R (.ok value) (.ok value')
  | error {fault fault' : Fault} (hfault : C.strict → C.Faults fault fault') :
    C.Results R (.error fault) (.error fault')
  | gained {fault : Fault} {value' : α'} (hlax : ¬ C.strict) :
    C.Results R (.error fault) (.ok value')

/-- The second run keeps up with the first one. -/
inductive Outcomes (C : Comparison) (R : α → α' → Prop) :
    EStateM.Result Fault Cursor α → EStateM.Result Fault Cursor α' → Prop
  | ok {value : α} {value' : α'} {rest rest' : Cursor} (hvalue : R value value')
    (hrest : C.Cursors rest rest') : C.Outcomes R (.ok value rest) (.ok value' rest')
  | error {fault fault' : Fault} {rest rest' : Cursor} (hfault : C.strict → C.Faults fault fault')
    (hrest : C.strict → C.Cursors rest rest') : C.Outcomes R (.error fault rest) (.error fault' rest')
  | gained {fault : Fault} {value' : α'} {rest rest' : Cursor} (hlax : ¬ C.strict) :
    C.Outcomes R (.error fault rest) (.ok value' rest')

/-- From cursors that correspond, the second parser keeps up with the first one. -/
def Tracks (C : Comparison) (R : α → α' → Prop) (parser : Parser α) (parser' : Parser α') : Prop :=
  ∀ ⦃cursor cursor' : Cursor⦄, C.Cursors cursor cursor' →
    C.Outcomes R (parser cursor) (parser' cursor')

variable {R : α → α' → Prop} {S : β → β' → Prop} {T : σ → σ' → Prop}

namespace Results

variable {value : α} {value' : α'} {fault fault' : Fault}

/-- A check that passes in the second run where it does in the first one. -/
theorem check {condition condition' : Prop} [Decidable condition] [Decidable condition']
    (hcondition : C.Entails condition condition') (hvalue : R value value')
    (hfault : C.Faults fault fault') :
    C.Results R (if condition then .ok value else .error fault)
      (if condition' then .ok value' else .error fault') := by
  by_cases hfirst : condition
  · rw [if_pos hfirst, if_pos (hcondition.forth hfirst)]
    exact .ok hvalue
  · rw [if_neg hfirst]
    by_cases hsecond : condition'
    · rw [if_pos hsecond]
      exact .gained fun hstrict => hfirst (hcondition.back hstrict hsecond)
    · rw [if_neg hsecond]
      exact .error fun _ => hfault

theorem pure (hvalue : R value value') : C.Results R (pure value) (pure value') := .ok hvalue

/-- A result that is only there in the second run may be followed by anything. -/
theorem of_lax {result' : Except Fault α'} (hlax : ¬ C.strict) :
    C.Results R (.error fault) result' := by
  cases result' with
  | ok => exact .gained hlax
  | error => exact .error fun hstrict => absurd hstrict hlax

theorem bind {result : Except Fault α} {result' : Except Fault α'} {next : α → Except Fault β}
    {next' : α' → Except Fault β'} (hresult : C.Results R result result')
    (hnext : ∀ value value', R value value' → C.Results S (next value) (next' value')) :
    C.Results S (result >>= next) (result' >>= next') := by
  cases hresult with
  | ok hvalue => exact hnext _ _ hvalue
  | error hfault => exact .error hfault
  | gained hlax => exact of_lax hlax

/-- In a strict comparison, both results are the same value or none. -/
theorem eq_ok_iff {result result' : Except Fault α} (hstrict : C.strict)
    (hresult : C.Results Eq result result') (value : α) :
    result = .ok value ↔ result' = .ok value := by
  cases hresult with
  | ok hvalue => rw [hvalue]
  | error => simp
  | gained hlax => exact absurd hstrict hlax

theorem exists_error {result : Except Fault α} {result' : Except Fault α'} (hstrict : C.strict)
    (hresult : C.Results R result result') {fault : Fault} (hfault : result = .error fault) :
    ∃ fault', result' = .error fault' ∧ C.Faults fault fault' := by
  cases hresult with
  | ok => cases hfault
  | error hfaults =>
    cases hfault
    exact ⟨_, rfl, hfaults hstrict⟩
  | gained hlax => exact absurd hstrict hlax

end Results

namespace Outcomes

variable {parser : Parser α} {parser' : Parser α'} {next : α → Parser β} {next' : α' → Parser β'}
  {cursor cursor' : Cursor}

/-- A run that only the second parser completes may be followed by anything. -/
theorem of_lax {fault : Fault} {rest : Cursor} {outcome' : EStateM.Result Fault Cursor α'}
    (hlax : ¬ C.strict) : C.Outcomes R (.error fault rest) outcome' := by
  cases outcome' with
  | ok => exact .gained hlax
  | error => exact .error (fun hstrict => absurd hstrict hlax) (fun hstrict => absurd hstrict hlax)

theorem bind (hparser : C.Outcomes R (parser cursor) (parser' cursor'))
    (hnext : ∀ value value' rest rest', R value value' → C.Cursors rest rest' →
      C.Outcomes S (next value rest) (next' value' rest')) :
    C.Outcomes S ((parser >>= next) cursor) ((parser' >>= next') cursor') := by
  rw [Parser.bind_run, Parser.bind_run]
  generalize parser cursor = outcome, parser' cursor' = outcome' at hparser
  cases hparser with
  | ok hvalue hrest => exact hnext _ _ _ _ hvalue hrest
  | error hfault hrest => exact .error hfault hrest
  | gained hlax => exact of_lax hlax

/-- One more level is opened in both runs. -/
theorem nested {limit : Nat} (hcursors : C.Cursors cursor cursor')
    (hparser : C.Outcomes R (parser { cursor with depth := cursor.depth + 1 })
      (parser' { cursor' with depth := cursor'.depth + 1 })) :
    C.Outcomes R (Parser.nested limit parser cursor) (Parser.nested limit parser' cursor') := by
  rw [Parser.nested, Parser.nested, ← hcursors.depth]
  rw [← hcursors.depth] at hparser
  split
  · exact .error (fun _ => ⟨rfl, C.span hcursors.current, .none⟩) fun _ => hcursors
  · generalize parser _ = outcome, parser' _ = outcome' at hparser
    cases hparser with
    | ok hvalue hrest => exact .ok hvalue (hrest.mapDepth (· - 1))
    | error hfault hrest => exact .error hfault fun hstrict => (hrest hstrict).mapDepth (· - 1)
    | gained hlax => exact of_lax hlax

/-- What the first run accepts is accepted in the second one. -/
theorem exists_of_ok (hparser : C.Outcomes R (parser cursor) (parser' cursor')) {value : α}
    {rest : Cursor} (hrun : parser cursor = .ok value rest) :
    ∃ value' rest', parser' cursor' = .ok value' rest' ∧ R value value' ∧ C.Cursors rest rest' := by
  rw [hrun] at hparser
  generalize parser' cursor' = outcome' at hparser ⊢
  cases hparser with
  | ok hvalue hrest => exact ⟨_, _, rfl, hvalue, hrest⟩

/-- In a strict comparison, what the second run accepts is accepted in the first one. -/
theorem exists_of_ok_right (hstrict : C.strict)
    (hparser : C.Outcomes R (parser cursor) (parser' cursor')) {value' : α'} {rest' : Cursor}
    (hrun : parser' cursor' = .ok value' rest') :
    ∃ value rest, parser cursor = .ok value rest ∧ R value value' ∧ C.Cursors rest rest' := by
  rw [hrun] at hparser
  generalize parser cursor = outcome at hparser ⊢
  cases hparser with
  | ok hvalue hrest => exact ⟨_, _, rfl, hvalue, hrest⟩
  | gained hlax => exact absurd hstrict hlax

theorem imp {S : α → α' → Prop} (hparser : C.Outcomes R (parser cursor) (parser' cursor'))
    (himp : ∀ value value', R value value' → S value value') :
    C.Outcomes S (parser cursor) (parser' cursor') := by
  generalize parser cursor = outcome, parser' cursor' = outcome' at hparser ⊢
  cases hparser with
  | ok hvalue hrest => exact .ok (himp _ _ hvalue) hrest
  | error hfault hrest => exact .error hfault hrest
  | gained hlax => exact .gained hlax

end Outcomes

namespace Tracks

/-! ## Sequencing -/

theorem pure {value : α} {value' : α'} (hvalue : R value value') :
    C.Tracks R (pure value) (pure value') :=
  fun _ _ hcursors => .ok hvalue hcursors

theorem throw {fault fault' : Fault} (hfault : C.Faults fault fault') :
    C.Tracks R (throw fault) (throw fault') :=
  fun _ _ hcursors => .error (fun _ => hfault) fun _ => hcursors

theorem ofExcept {result : Except Fault α} {result' : Except Fault α'}
    (hresult : C.Results R result result') : C.Tracks R (ofExcept result) (ofExcept result') := by
  intro cursor cursor' hcursors
  rw [Parser.ofExcept_run, Parser.ofExcept_run]
  cases hresult with
  | ok hvalue => exact .ok hvalue hcursors
  | error hfault => exact .error hfault fun _ => hcursors
  | gained hlax => exact .gained hlax

section Bind

variable {parser : Parser α} {parser' : Parser α'}

theorem bind {next : α → Parser β} {next' : α' → Parser β'} (hparser : C.Tracks R parser parser')
    (hnext : ∀ value value', R value value' → C.Tracks S (next value) (next' value')) :
    C.Tracks S (parser >>= next) (parser' >>= next') := by
  intro _ _ hcursors
  apply (hparser hcursors).bind
  intro value value' _ _ hvalue hrest
  exact hnext value value' hvalue hrest

/-- A value that is known to be the same. -/
theorem bind_eq {parser parser' : Parser α} {next : α → Parser β} {next' : α → Parser β'}
    (hparser : C.Tracks Eq parser parser') (hnext : ∀ value, C.Tracks S (next value) (next' value)) :
    C.Tracks S (parser >>= next) (parser' >>= next') := by
  apply hparser.bind
  rintro value _ rfl
  exact hnext value

theorem map {f : α → β} {f' : α' → β'} (hparser : C.Tracks R parser parser')
    (hf : ∀ value value', R value value' → S (f value) (f' value')) :
    C.Tracks S (parser >>= fun value => Pure.pure (f value))
      (parser' >>= fun value' => Pure.pure (f' value')) := by
  apply hparser.bind
  intro value value' hvalue
  exact .pure (hf value value' hvalue)

theorem imp {S : α → α' → Prop} (hparser : C.Tracks R parser parser')
    (himp : ∀ value value', R value value' → S value value') : C.Tracks S parser parser' :=
  fun _ _ hcursors => (hparser hcursors).imp himp

theorem ite {condition condition' : Prop} [Decidable condition] [Decidable condition']
    {first second : Parser α} {first' second' : Parser α'} (hcondition : condition ↔ condition')
    (hfirst : C.Tracks R first first') (hsecond : C.Tracks R second second') :
    C.Tracks R (if condition then first else second) (if condition' then first' else second') := by
  by_cases hholds : condition
  · rw [if_pos hholds, if_pos (hcondition.mp hholds)]
    exact hfirst
  · rw [if_neg hholds, if_neg (mt hcondition.mpr hholds)]
    exact hsecond

/-- A condition that the second run fulfils where the first one does. -/
theorem guard {condition condition' : Prop} [Decidable condition] [Decidable condition']
    {fault fault' : Fault} (hcondition : C.Entails condition condition')
    (hparser : C.Tracks R parser parser') (hfault : C.Faults fault fault') :
    C.Tracks R (if condition then parser else MonadExcept.throw fault)
      (if condition' then parser' else MonadExcept.throw fault') := by
  intro cursor cursor' hcursors
  by_cases hfirst : condition
  · rw [if_pos hfirst, if_pos (hcondition.forth hfirst)]
    exact hparser hcursors
  · rw [if_neg hfirst]
    by_cases hsecond : condition'
    -- only the second run goes on, and may fail later with any fault
    · exact .of_lax fun hstrict => hfirst (hcondition.back hstrict hsecond)
    · rw [if_neg hsecond]
      exact throw hfault hcursors

theorem nested (limit : Nat) (hparser : C.Tracks R parser parser') :
    C.Tracks R (Parser.nested limit parser) (Parser.nested limit parser') :=
  fun _ _ hcursors => .nested hcursors (hparser (hcursors.mapDepth (· + 1)))

end Bind

/-! ## Tokens -/

theorem get : C.Tracks C.Cursors get get :=
  fun _ _ hcursors => .ok hcursors hcursors

theorem current : C.Tracks C.Tokens current current :=
  fun _ _ hcursors => .ok hcursors.current hcursors

theorem next : C.Tracks C.Tokens next next :=
  fun cursor cursor' hcursors => by
    rw [Parser.next_run, Parser.next_run]
    exact .ok hcursors.current hcursors.advance

theorem failHere {problem problem' : Problem} (hkey : problem.key = problem'.key) :
    C.Tracks R (failHere problem) (failHere problem') :=
  fun _ _ hcursors => .error (fun _ => ⟨hkey, C.span hcursors.current, .none⟩) fun _ => hcursors

theorem unexpected (expected : String) : C.Tracks R (unexpected expected) (unexpected expected) :=
  by
  apply current.bind
  intro _ _ _
  exact failHere rfl

/-- A token is consumed in both runs or in none, if the test does not tell the tokens apart. -/
theorem takeIf {test : Token → Bool}
    (htest : ∀ token token', C.Tokens token token' → test token = test token') :
    C.Tracks (Option.Rel fun token token' => C.Tokens token token' ∧ test token = true)
      (takeIf test) (takeIf test) := by
  intro cursor cursor' hcursors
  rw [Parser.takeIf_run, Parser.takeIf_run, ← htest _ _ hcursors.current]
  split
  · next hpasses => exact .ok (.some ⟨hcursors.current, hpasses⟩) hcursors.advance
  · exact .ok .none hcursors

theorem accept {kind : TokenKind} (hkind : C.SameIsA kind) : C.Tracks Eq (accept kind) (accept kind) := by
  intro cursor cursor' hcursors
  rw [Parser.accept_run, Parser.accept_run, ← hkind _ _ hcursors.current]
  split
  · exact .ok rfl hcursors.advance
  · exact .ok rfl hcursors

theorem acceptWord {word : String} (hword : C.SameIsWord word) :
    C.Tracks Eq (acceptWord word) (acceptWord word) := by
  intro cursor cursor' hcursors
  rw [Parser.acceptWord_run, Parser.acceptWord_run, ← hword _ _ hcursors.current]
  split
  · exact .ok rfl hcursors.advance
  · exact .ok rfl hcursors

/-- A token that is required in both runs. -/
theorem expect_of_entails {kind : TokenKind}
    (hkind : ∀ token token', C.Tokens token token' →
      C.Entails (token.isA kind = true) (token'.isA kind = true)) :
    C.Tracks (fun token token' => C.Tokens token token' ∧ token.isA kind = true)
      (expect kind) (expect kind) := by
  intro cursor cursor' hcursors
  have hentails := hkind _ _ hcursors.current
  rw [Parser.expect_run, Parser.expect_run]
  by_cases hfirst : cursor.current.isA kind = true
  · rw [if_pos hfirst, if_pos (hentails.forth hfirst)]
    exact .ok ⟨hcursors.current, hfirst⟩ hcursors.advance
  · rw [if_neg hfirst]
    by_cases hsecond : cursor'.current.isA kind = true
    · rw [if_pos hsecond]
      exact .gained fun hstrict => hfirst (hentails.back hstrict hsecond)
    · rw [if_neg hsecond]
      exact unexpected _ hcursors

theorem expect {kind : TokenKind} (hkind : C.SameIsA kind) :
    C.Tracks (fun token token' => C.Tokens token token' ∧ token.isA kind = true)
      (Parser.expect kind) (Parser.expect kind) :=
  expect_of_entails fun token token' htokens => .of_iff (by rw [hkind token token' htokens])

theorem oneOfWords {word : α → String} {meanings : List α}
    (hwords : ∀ meaning ∈ meanings, C.SameIsWord (word meaning)) :
    C.Tracks Eq (oneOfWords word meanings) (oneOfWords word meanings) := by
  induction meanings with
  | nil => exact pure rfl
  | cons meaning meanings ih =>
    obtain ⟨hmeaning, hmeanings⟩ := List.forall_mem_cons.mp hwords
    apply (acceptWord hmeaning).bind_eq
    intro _
    exact .ite .rfl (pure rfl) (ih hmeanings)

/-! ## Repetition -/

section Loops

variable {step : σ → Parser (Option σ)} {step' : σ' → Parser (Option σ')}
  (hstep : ∀ state state', T state state' → C.Tracks (Option.Rel T) (step state) (step' state'))
  {state : σ} {state' : σ'} (hstate : T state state')

include hstep hstate

theorem iterateUpTo (rounds : Nat) :
    C.Tracks T (iterateUpTo step rounds state) (iterateUpTo step' rounds state') := by
  induction rounds generalizing state state' with
  | zero => exact pure hstate
  | succ rounds ih =>
    apply (hstep state state' hstate).bind
    intro next? next?' hnext
    cases hnext with
    | none => exact pure hstate
    | some hnext => exact ih hnext

theorem iterate : C.Tracks T (iterate step state) (iterate step' state') := by
  apply get.bind
  intro cursor cursor' hcursors
  -- the rounds are bounded by the tokens ahead, which are as many in both runs
  rw [hcursors.ahead.length_eq]
  exact iterateUpTo hstep hstate _

end Loops

section Unfolding

variable {step : σ → Parser (α × Option σ)} {step' : σ' → Parser (α' × Option σ')}
  (hstep : ∀ state state', T state state' →
    C.Tracks (fun result result' => R result.1 result'.1 ∧ Option.Rel T result.2 result'.2)
      (step state) (step' state'))
  {state : σ} {state' : σ'} (hstate : T state state')

include hstep hstate

theorem unfoldUpTo (rounds : Nat) :
    C.Tracks (List.Forall₂ R) (unfoldUpTo step rounds state) (unfoldUpTo step' rounds state') := by
  induction rounds generalizing state state' with
  | zero => exact pure .nil
  | succ rounds ih =>
    apply (hstep state state' hstate).bind
    intro result result' hresult
    obtain ⟨value, next?⟩ := result
    obtain ⟨value', next?'⟩ := result'
    obtain ⟨hvalue, hnext⟩ := hresult
    cases hnext with
    | none => exact pure (.cons hvalue .nil)
    | some hnext => exact (ih hnext).map fun _ _ hvalues => .cons hvalue hvalues

theorem unfold : C.Tracks (List.Forall₂ R) (unfold step state) (unfold step' state') := by
  apply get.bind
  intro cursor cursor' hcursors
  rw [hcursors.ahead.length_eq]
  exact unfoldUpTo hstep hstate _

end Unfolding

theorem separatedFrom {step : σ → Parser σ} {step' : σ' → Parser σ'} {separator : TokenKind}
    (hstep : ∀ state state', T state state' → C.Tracks T (step state) (step' state'))
    (hseparator : C.SameIsA separator) {state : σ} {state' : σ'} (hstate : T state state') :
    C.Tracks T (separatedFrom step separator state) (separatedFrom step' separator state') := by
  apply (hstep state state' hstate).bind
  intro first first' hfirst
  refine iterate ?_ hfirst
  intro state state' hstate
  apply (accept hseparator).bind_eq
  intro found
  cases found with
  | false => exact pure .none
  | true =>
    apply (hstep state state' hstate).map
    intro next next' hnext
    exact .some hnext

theorem separated {item : Parser α} {item' : Parser α'} {separator : TokenKind}
    (hitem : C.Tracks R item item') (hseparator : C.SameIsA separator) :
    C.Tracks (List.Forall₂ R) (separated item separator) (separated item' separator) := by
  apply unfold (T := Eq) _ rfl
  intro _ _ _
  apply hitem.bind
  intro value value' hvalue
  apply (accept hseparator).bind_eq
  intro more
  cases more with
  | true => exact pure ⟨hvalue, .some rfl⟩
  | false => exact pure ⟨hvalue, .none⟩

theorem rel_of_eq {state? state?' : Option σ} (hsame : state? = state?') :
    Option.Rel Eq state? state?' := by
  rw [hsame]
  cases state?' with
  | none => exact .none
  | some state => exact .some rfl

/-- The same state in both runs. -/
theorem iterate_eq {step step' : σ → Parser (Option σ)}
    (hstep : ∀ state, C.Tracks Eq (step state) (step' state)) (state : σ) :
    C.Tracks Eq (Parser.iterate step state) (Parser.iterate step' state) := by
  refine iterate (fun state state' hstate => ?_) rfl
  rw [← hstate]
  exact (hstep state).imp fun _ _ => rel_of_eq

/-- The same values in both runs. -/
theorem unfold_eq {step step' : σ → Parser (α × Option σ)}
    (hstep : ∀ state, C.Tracks Eq (step state) (step' state)) (state : σ) :
    C.Tracks Eq (Parser.unfold step state) (Parser.unfold step' state) := by
  rw [← List.forall₂_eq_eq_eq]
  refine unfold (T := Eq) (fun state state' hstate => ?_) rfl
  rw [← hstate]
  exact (hstep state).imp fun result result' hresult =>
    ⟨congrArg Prod.fst hresult, rel_of_eq (congrArg Prod.snd hresult)⟩

theorem separated_eq {item item' : Parser α} {separator : TokenKind}
    (hitem : C.Tracks Eq item item') (hseparator : C.SameIsA separator) :
    C.Tracks Eq (Parser.separated item separator) (Parser.separated item' separator) := by
  rw [← List.forall₂_eq_eq_eq]
  exact separated hitem hseparator

theorem chain {operand : Parser α} {operand' : Parser α'} {operator? : Parser (Option γ)}
    {combine : γ → α → α → Except Fault α} {combine' : γ → α' → α' → Except Fault α'}
    (hoperand : C.Tracks R operand operand') (hoperator : C.Tracks Eq operator? operator?)
    (hcombine : ∀ operator left left' right right', R left left' → R right right' →
      C.Results R (combine operator left right) (combine' operator left' right')) :
    C.Tracks R (chain operand operator? combine) (chain operand' operator? combine') := by
  apply hoperand.bind
  intro first first' hfirst
  refine iterate (fun left left' hleft => ?_) hfirst
  apply hoperator.bind_eq
  intro operator
  cases operator with
  | none => exact pure .none
  | some operator =>
    apply hoperand.bind
    intro right right' hright
    exact (ofExcept (hcombine operator left left' right right' hleft hright)).map
      fun _ _ hvalue => .some hvalue

/-! ## Whole runs -/

theorem complete (option : OptionKind) {parser : Parser α} {parser' : Parser α'}
    (hparser : C.Tracks R parser parser') :
    C.Tracks R (complete option parser) (complete option parser') := by
  apply hparser.bind
  intro value value' hvalue
  apply current.bind
  intro token token' htoken
  exact .ite (C.endOfInput_iff htoken) (pure hvalue) (failHere rfl)

theorem onTokens {parser : Parser α} {parser' : Parser α'} (hparser : C.Tracks R parser parser')
    {tokens tokens' : List Token} (htokens : C.Cursors (.ofTokens tokens) (.ofTokens tokens')) :
    C.Results R (parser.onTokens tokens) (parser'.onTokens tokens') := by
  have houtcomes := hparser htokens
  unfold Parser.onTokens EStateM.run
  generalize parser _ = outcome, parser' _ = outcome' at houtcomes
  cases houtcomes with
  | ok hvalue _ => exact .ok hvalue
  | error hfault _ => exact .error hfault
  | gained hlax => exact .gained hlax

end Tracks

/-! ## The same words -/

/-- Tokens at the same position are the same word, but for the case of keywords. -/
def Respelled (C : Comparison) : Prop :=
  ∀ ⦃token token'⦄, C.Tokens token token' → token.word.Respells token'.word

namespace Respelled

variable (hwords : C.Respelled)

include hwords

theorem sameIsA (kind : TokenKind) : C.SameIsA kind :=
  fun _ _ htoken => (hwords htoken).isA_eq kind

theorem sameIsWord (word : String) : C.SameIsWord word :=
  fun _ _ htoken => (hwords htoken).isWord_eq word

theorem accept (kind : TokenKind) : C.Tracks Eq (accept kind) (accept kind) :=
  .accept (hwords.sameIsA kind)

theorem acceptWord (word : String) : C.Tracks Eq (acceptWord word) (acceptWord word) :=
  .acceptWord (hwords.sameIsWord word)

theorem word_eq {token token' : Token} {kind : TokenKind} (htoken : C.Tokens token token')
    (hisA : token.isA kind = true) (hplain : kind.isKeyword = false) : token.word = token'.word :=
  (hwords htoken).eq_of_plain (Token.isKeyword_of_isA hisA hplain)

/-- A token that is no keyword is the same word in both runs. -/
theorem expect (kind : TokenKind) (hplain : kind.isKeyword = false) :
    C.Tracks (fun token token' => C.Tokens token token' ∧ token.text = token'.text)
      (Parser.expect kind) (Parser.expect kind) :=
  (Tracks.expect (hwords.sameIsA kind)).imp fun _ _ ⟨htoken, hisA⟩ =>
    ⟨htoken, congrArg Word.text (hwords.word_eq htoken hisA hplain)⟩

theorem take? (kind : TokenKind) (hplain : kind.isKeyword = false) :
    C.Tracks (Option.Rel fun token token' => C.Tokens token token' ∧ token.text = token'.text)
      (Parser.take? kind) (Parser.take? kind) := by
  apply (Tracks.takeIf (hwords.sameIsA kind)).imp
  intro token? token?' hfound
  cases hfound with
  | none => exact .none
  | some hfound =>
    exact .some ⟨hfound.1, congrArg Word.text (hwords.word_eq hfound.1 hfound.2 hplain)⟩

/-- A mark or keyword that is consumed for its kind alone. -/
theorem expect_mark (kind : TokenKind) :
    C.Tracks C.Tokens (Parser.expect kind) (Parser.expect kind) :=
  (Tracks.expect (hwords.sameIsA kind)).imp fun _ _ => And.left

end Respelled

end Comparison

end ODataOptions
