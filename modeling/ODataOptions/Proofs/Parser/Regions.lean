import ODataOptions.Proofs.Parser.Chains
import ODataOptions.Proofs.Parser.Stretches

/-!
# Parsers that do the same in a region

Two parsers may be compared on some cursors only, such as those where so many tokens have been consumed or
so many levels are open.  `Parser.SameOn region parser parser'` says that from each cursor of the region both
parsers do the same, down to the fault and the place.  There is one rule for each way to build a parser, and
those that consume a token lead on into the inner part of the region.
-/

namespace ODataOptions

open ODataOptions.Parser

namespace Cursor

/-- Words that are passed lead from the cursors of a region to others of it, and, where there is one at
least, to those of its inner part. -/
structure Inner (region inner : Cursor → Prop) : Prop where
  kept : ∀ ⦃cursor rest words⦄, region cursor → cursor.Passes words rest → region rest
  entered : ∀ ⦃cursor rest words⦄, region cursor → cursor.Passes words rest →
    rest.ahead.length < cursor.ahead.length → inner rest

/-- The region between the same tokens, where at least so many of them have been consumed since. -/
structure Behind (start : Cursor) (count : Nat) (cursor : Cursor) : Prop where
  tokens_eq : cursor.tokens = start.tokens
  position_le : start.position + count ≤ cursor.position

variable {start : Cursor} {count : Nat}

theorem Inner.self {region inner : Cursor → Prop} (hinner : Inner region inner) : Inner region region :=
  ⟨hinner.kept, fun _ _ _ hcursor hpasses _ => hinner.kept hcursor hpasses⟩

theorem Behind.refl (start : Cursor) : Behind start 0 start := ⟨rfl, Nat.le_refl _⟩

theorem inner_behind (start : Cursor) (count : Nat) :
    Inner (Behind start count) (Behind start (count + 1)) := by
  constructor
  · intro cursor rest words hcursor hpasses
    have hreaches := hpasses.reaches
    exact ⟨hreaches.tokens_eq.trans hcursor.tokens_eq,
      Nat.le_trans hcursor.position_le hreaches.position_le⟩
  · intro cursor rest words hcursor hpasses hlt
    have hreaches := hpasses.reaches
    have hposition := hreaches.position_lt hlt
    exact ⟨hreaches.tokens_eq.trans hcursor.tokens_eq,
      Nat.lt_of_le_of_lt hcursor.position_le hposition⟩

/-- Both numbers of levels are enough at the cursor: there is a level at least, and one more than may still be
opened within the limit. -/
def Suffice (limit few many : Nat) (cursor : Cursor) : Prop :=
  0 < few ∧ 0 < many ∧ limit < few + cursor.depth ∧ limit < many + cursor.depth

/-- Behind a token, one level fewer is enough. -/
theorem inner_suffice (limit few many : Nat) :
    Inner (Suffice limit few many) (Suffice limit few many) := by
  have hkept : ∀ {cursor rest : Cursor} {words}, Suffice limit few many cursor →
      cursor.Passes words rest → Suffice limit few many rest := by
    intro cursor rest words hcursor hpasses
    rw [Suffice, hpasses.depth_eq]
    exact hcursor
  exact ⟨fun _ _ _ hcursor hpasses => hkept hcursor hpasses,
    fun _ _ _ hcursor hpasses _ => hkept hcursor hpasses⟩

/-- Two more levels than the limit are no better than one more. -/
theorem suffice_limit (limit : Nat) (cursor : Cursor) : Suffice limit (limit + 2) (limit + 1) cursor := by
  simp only [Suffice]
  omega

end Cursor

namespace Parser

variable {α β σ : Type} {region inner : Cursor → Prop} {parser parser' : Parser α}

/-! ## Rounds of lists and chains -/

/-- One round of `separated`: an item, and whether a separator stands behind it. -/
def separatedStep (item : Parser α) (separator : TokenKind) (_ : Unit) :
    Parser (α × Option Unit) := do
  return (← item, if ← accept separator then some () else none)

theorem moves_separatedStep {item : Parser α} (hitem : Moves item) (separator : TokenKind) (state : Unit) :
    Moves (separatedStep item separator state) := by
  apply hitem.bind
  intro _
  exact (moves_accept separator).map _

theorem moves_chainStep {operand : Parser α} (hoperand : Moves operand)
    {operator? : Parser (Option β)} (hoperator : Moves operator?)
    (combine : β → α → α → Except Fault α) (left : α) :
    Moves (chainStep operand operator? combine left) := by
  apply hoperator.bind
  intro found
  cases found with
  | none => exact moves_pure none
  | some operator => exact hoperand.bind fun right => (moves_ofExcept _).map some

/-! ## Doing the same -/

/-- From every cursor of the region, both parsers do the same. -/
def SameOn (region : Cursor → Prop) (parser parser' : Parser α) : Prop :=
  ∀ ⦃cursor⦄, region cursor → parser cursor = parser' cursor

namespace SameOn

theorem refl (region : Cursor → Prop) (parser : Parser α) : SameOn region parser parser :=
  fun _ _ => rfl

theorem mono {smaller : Cursor → Prop} (hsame : SameOn region parser parser')
    (hsmaller : ∀ ⦃cursor⦄, smaller cursor → region cursor) : SameOn smaller parser parser' :=
  fun _ hcursor => hsame (hsmaller hcursor)

/-- What the second part starts from is known of where the first one stops. -/
theorem bind_into {middle : α → Cursor → Prop} {next next' : α → Parser β}
    (hsame : SameOn region parser parser')
    (hmiddle : ∀ ⦃cursor value rest⦄, region cursor → parser' cursor = .ok value rest →
      middle value rest)
    (hnext : ∀ value, SameOn (middle value) (next value) (next' value)) :
    SameOn region (parser >>= next) (parser' >>= next') := by
  intro cursor hcursor
  rw [bind_run, bind_run, hsame hcursor]
  cases hrun : parser' cursor with
  | error => rfl
  | ok value rest => exact hnext value (hmiddle hcursor hrun)

/-- A second part that is the same one anyway. -/
theorem bind_same (hsame : SameOn region parser parser') (next : α → Parser β) :
    SameOn region (parser >>= next) (parser' >>= next) :=
  hsame.bind_into (fun _ _ _ _ _ => trivial) fun value => refl (fun _ => True) (next value)

theorem ite {condition : Prop} [Decidable condition] {first first' second second' : Parser α}
    (hfirst : SameOn region first first') (hsecond : SameOn region second second') :
    SameOn region (if condition then first else second) (if condition then first' else second') := by
  by_cases hcondition : condition
  · rwa [if_pos hcondition, if_pos hcondition]
  · rwa [if_neg hcondition, if_neg hcondition]

/-- A parser that is run one level further in starts in the region that this leads to. -/
theorem nested {deeper : Cursor → Prop} {limit : Nat} (hsame : SameOn deeper parser parser')
    (hdeeper : ∀ ⦃cursor⦄, region cursor → cursor.depth < limit →
      deeper { cursor with depth := cursor.depth + 1 }) :
    SameOn region (nested limit parser) (Parser.nested limit parser') := by
  intro cursor hcursor
  rw [Parser.nested, Parser.nested]
  by_cases hlimit : limit ≤ cursor.depth
  · rw [if_pos hlimit, if_pos hlimit]
  · rw [if_neg hlimit, if_neg hlimit, hsame (hdeeper hcursor (Nat.lt_of_not_le hlimit))]

/-- Opening a level is not moving. -/
theorem nested_behind {start : Cursor} {count limit : Nat}
    (hsame : SameOn (Cursor.Behind start count) parser parser') :
    SameOn (Cursor.Behind start count) (Parser.nested limit parser) (Parser.nested limit parser') :=
  hsame.nested fun _ hcursor _ => ⟨hcursor.tokens_eq, hcursor.position_le⟩

/-- A level that may be opened leaves enough levels for what is run in it. -/
theorem nested_suffice {limit few many : Nat}
    (hsame : SameOn (Cursor.Suffice limit few many) parser parser') :
    SameOn (Cursor.Suffice limit (few + 1) (many + 1)) (Parser.nested limit parser)
      (Parser.nested limit parser') := by
  apply hsame.nested
  intro cursor hcursor hdepth
  simp only [Cursor.Suffice] at hcursor ⊢
  omega

section Inner

variable (hinner : Cursor.Inner region inner)

include hinner

/-- The second part begins at another cursor of the region. -/
theorem bind {next next' : α → Parser β} (hsame : SameOn region parser parser')
    (hmoves : Moves parser') (hnext : ∀ value, SameOn region (next value) (next' value)) :
    SameOn region (parser >>= next) (parser' >>= next') := by
  apply hsame.bind_into _ hnext
  intro cursor value rest hcursor hrun
  obtain ⟨words, hpasses⟩ := hmoves.passes hrun
  exact hinner.kept hcursor hpasses

/-- Behind a value that the parser goes on with, a token has been consumed. -/
theorem bind_progresses {goesOn : α → Prop} {next next' : α → Parser β}
    (hsame : SameOn region parser parser') (hmoves : Moves parser')
    (hprogress : Progresses goesOn parser')
    (hon : ∀ value, goesOn value → SameOn inner (next value) (next' value))
    (hstop : ∀ value, ¬ goesOn value → SameOn region (next value) (next' value)) :
    SameOn region (parser >>= next) (parser' >>= next') := by
  have hmiddle : ∀ ⦃cursor value rest⦄, region cursor → parser' cursor = .ok value rest →
      region rest ∧ (goesOn value → inner rest) := by
    intro cursor value rest hcursor hrun
    obtain ⟨words, hpasses⟩ := hmoves.passes hrun
    exact ⟨hinner.kept hcursor hpasses, fun hgoes =>
      hinner.entered hcursor hpasses (hprogress hrun hgoes)⟩
  apply hsame.bind_into hmiddle
  intro value
  by_cases hgoes : goesOn value
  · exact (hon value hgoes).mono fun _ hrest => hrest.2 hgoes
  · exact (hstop value hgoes).mono fun _ hrest => hrest.1

/-- Behind a token that has been consumed, the inner part of the region is enough. -/
theorem bind_consumes {next next' : α → Parser β} (hsame : SameOn region parser parser')
    (hmoves : Moves parser') (hconsumes : Consumes parser')
    (hnext : ∀ value, SameOn inner (next value) (next' value)) :
    SameOn region (parser >>= next) (parser' >>= next') :=
  hsame.bind_progresses hinner hmoves hconsumes.progresses (fun value _ => hnext value)
    fun _ hgoes => absurd trivial hgoes

theorem bind_bool {choice : Parser Bool} {next next' : Bool → Parser β} (hmoves : Moves choice)
    (hprogress : Progresses (· = true) choice) (htrue : SameOn inner (next true) (next' true))
    (hfalse : SameOn region (next false) (next' false)) :
    SameOn region (choice >>= next) (choice >>= next') := by
  apply (refl region choice).bind_progresses hinner hmoves hprogress
  · rintro _ rfl
    exact htrue
  · intro found hfound
    rw [Bool.eq_false_iff.mpr hfound]
    exact hfalse

theorem bind_option {choice : Parser (Option α)} {next next' : Option α → Parser β}
    (hmoves : Moves choice) (hprogress : Progresses (·.isSome) choice)
    (hsome : ∀ value, SameOn inner (next (some value)) (next' (some value)))
    (hnone : SameOn region (next none) (next' none)) :
    SameOn region (choice >>= next) (choice >>= next') := by
  apply (refl region choice).bind_progresses hinner hmoves hprogress
  · intro found hfound
    obtain ⟨value, rfl⟩ := Option.isSome_iff_exists.mp hfound
    exact hsome value
  · intro found hfound
    rw [Option.not_isSome_iff_eq_none.mp hfound]
    exact hnone

/-- What is expected and found has been consumed. -/
theorem expect_bind {kind : TokenKind} (hkind : kind ≠ .endOfInput) {next next' : Token → Parser β}
    (hnext : ∀ token, SameOn inner (next token) (next' token)) :
    SameOn region (expect kind >>= next) (expect kind >>= next') :=
  (refl region (expect kind)).bind_consumes hinner (moves_expect kind) (consumes_expect hkind) hnext

/-- A first part that is the same one anyway. -/
theorem moves_bind (hmoves : Moves parser) {next next' : α → Parser β}
    (hnext : ∀ value, SameOn region (next value) (next' value)) :
    SameOn region (parser >>= next) (parser >>= next') :=
  (refl region parser).bind hinner hmoves hnext

end Inner

/-! ## Loops -/

section Loops

variable (hinner : Cursor.Inner region inner)

include hinner

theorem iterateUpTo {step step' : σ → Parser (Option σ)}
    (hstep : ∀ state, SameOn region (step state) (step' state)) (hmoves : ∀ state, Moves (step' state))
    (rounds : Nat) (state : σ) :
    SameOn region (iterateUpTo step rounds state) (Parser.iterateUpTo step' rounds state) := by
  induction rounds generalizing state with
  | zero => exact refl region _
  | succ rounds ih =>
    apply (hstep state).bind hinner (hmoves state)
    intro next?
    cases next? with
    | none => exact refl region _
    | some next => exact ih next

theorem iterate {step step' : σ → Parser (Option σ)}
    (hstep : ∀ state, SameOn region (step state) (step' state)) (hmoves : ∀ state, Moves (step' state))
    (state : σ) : SameOn region (iterate step state) (Parser.iterate step' state) :=
  moves_bind hinner moves_get fun _ => iterateUpTo hinner hstep hmoves _ state

theorem unfoldUpTo {step step' : σ → Parser (α × Option σ)}
    (hstep : ∀ state, SameOn region (step state) (step' state)) (hmoves : ∀ state, Moves (step' state))
    (rounds : Nat) (state : σ) :
    SameOn region (unfoldUpTo step rounds state) (Parser.unfoldUpTo step' rounds state) := by
  induction rounds generalizing state with
  | zero => exact refl region _
  | succ rounds ih =>
    apply (hstep state).bind hinner (hmoves state)
    rintro ⟨value, next?⟩
    cases next? with
    | none => exact refl region _
    | some next => exact (ih next).bind_same _

theorem unfold {step step' : σ → Parser (α × Option σ)}
    (hstep : ∀ state, SameOn region (step state) (step' state)) (hmoves : ∀ state, Moves (step' state))
    (state : σ) : SameOn region (unfold step state) (Parser.unfold step' state) :=
  moves_bind hinner moves_get fun _ => unfoldUpTo hinner hstep hmoves _ state

theorem separated (hsame : SameOn region parser parser') (hmoves : Moves parser')
    (separator : TokenKind) :
    SameOn region (separated parser separator) (Parser.separated parser' separator) :=
  unfold hinner (fun _ => hsame.bind_same _) (moves_separatedStep hmoves separator) ()

/-- Behind an operator, or none, the operands may differ. -/
theorem chainStep {operator? : Parser (Option β)} (hoperator : Moves operator?)
    (hsame : SameOn region parser parser') (combine : β → α → α → Except Fault α) (left : α) :
    SameOn region (chainStep parser operator? combine left)
      (Parser.chainStep parser' operator? combine left) := by
  apply moves_bind hinner hoperator
  intro found
  cases found with
  | none => exact refl region _
  | some operator => exact hsame.bind_same _

theorem chain (hsame : SameOn region parser parser') (hmoves : Moves parser')
    {operator? : Parser (Option β)} (hoperator : Moves operator?)
    (combine : β → α → α → Except Fault α) :
    SameOn region (chain parser operator? combine) (Parser.chain parser' operator? combine) :=
  hsame.bind hinner hmoves
    (iterate hinner (hsame.chainStep hinner hoperator combine) (moves_chainStep hmoves hoperator combine))

end Loops

end SameOn

end Parser

end ODataOptions
