import ODataOptions.Expand.Parser
import ODataOptions.Proofs.Expression.Filters
import ODataOptions.Proofs.Search.Spelling
import ODataOptions.Proofs.Select.Validity

/-!
# Valid options

The value of an option is valid for the type that the option applies to.  What a valid expansion is
comes in as a parameter, like the expansions themselves.
-/

namespace ODataOptions

open ODataOptions.Parser

/-- A number of levels is positive and fits 32 bits. -/
def Levels.Valid : Levels → Prop
  | .max => True
  | .depth count => 0 < count ∧ count < UInt32.size

def OrderBy.Valid (scope : Scope) (owner : StructuredType) (words : Vocabulary)
    (keys : OrderBy) : Prop :=
  keys ≠ [] ∧ ∀ key ∈ keys, key.expression.IsKey scope owner words

section Validity

variable {Expansion : Type} (scope : Scope) (words : Vocabulary)
  (nested : StructuredType → Expansion → Prop) (owner : StructuredType)

/-- The value of an option is valid for entities of the type `owner`, where `nested` says which
expansions are. -/
def SystemOption.Valid : SystemOption Expansion → Prop
  | .count _ => True
  | .expand value => nested owner value
  | .filter value => value.IsFilter scope owner words
  | .levels value => value.Valid
  | .orderBy value => OrderBy.Valid scope owner words value
  | .search value => value.Spelled words
  | .select value => Select.Valid scope.schema words owner value
  | .skip value | .top value => value < UInt32.size

/-- Each option of a set is of a kind that the context allows, and valid. -/
def OptionSet.Valid (context : OptionContext) (options : OptionSet Expansion) : Prop :=
  ∀ kind option, options.get? kind = some option →
    context.allows kind = true ∧ option.Valid scope words nested owner

end Validity

section Monotone

variable {Expansion : Type} {scope : Scope} {words : Vocabulary}
  {nested nested' : StructuredType → Expansion → Prop} {owner : StructuredType}

theorem SystemOption.Valid.mono {option : SystemOption Expansion}
    (hoption : option.Valid scope words nested owner)
    (hnested : ∀ owner value, nested owner value → nested' owner value) :
    option.Valid scope words nested' owner := by
  cases option with
  | expand value => exact hnested owner value hoption
  | _ => exact hoption

theorem OptionSet.Valid.mono {context : OptionContext} {options : OptionSet Expansion}
    (hoptions : options.Valid scope words nested owner context)
    (hnested : ∀ owner value, nested owner value → nested' owner value) :
    options.Valid scope words nested' owner context := by
  intro kind option hget
  obtain ⟨hallows, hoption⟩ := hoptions kind option hget
  exact ⟨hallows, hoption.mono hnested⟩

end Monotone

/-! ## Values -/

section Values

variable {words : Vocabulary}

theorem Parser.yields_wholeNumber (option : String) (zeroAllowed : Bool) :
    Yields words (wholeNumber option zeroAllowed) fun value =>
      value < UInt32.size ∧ (zeroAllowed = false → 0 < value) := by
  apply (yields_expect (by decide)).bind
  intro token _
  split
  · next value hvalue =>
    obtain ⟨-, hadmits⟩ := Option.filter_eq_some_iff.mp hvalue
    simp only [admitsNumber, Bool.and_eq_true, Bool.or_eq_true, decide_eq_true_eq] at hadmits
    obtain ⟨hfits, hpositive⟩ := hadmits
    refine .pure ⟨hfits, fun hzero => ?_⟩
    rcases hpositive with hallowed | hpositive
    · rw [hzero] at hallowed
      cases hallowed
    · exact hpositive
  · exact yields_throw _

theorem Parser.yields_truthValue : Yields words truthValue fun _ => True :=
  (yields_expect (by decide)).map fun _ _ => trivial

theorem Levels.yields_parse : Yields words Levels.parse Levels.Valid := by
  apply (yields_accept .max).bind
  intro max _
  cases max with
  | true => exact .pure trivial
  | false => exact (yields_wholeNumber _ _).map fun _ hvalue => ⟨hvalue.2 rfl, hvalue.1⟩

variable {Expansion : Type} {scope : Scope} {nested : StructuredType → Expansion → Prop}

/-- The value of an option is parsed as one of the kind asked for, and valid. -/
theorem SystemOption.yields_parseValue {expansion : StructuredType → Parser Expansion}
    (hexpansion : ∀ owner, Yields words (expansion owner) (nested owner)) (owner : StructuredType)
    (kind : OptionKind) :
    Yields words (parseValue scope expansion owner kind) fun option =>
      option.kind = kind ∧ option.Valid scope words nested owner := by
  cases kind with
  | count => exact yields_truthValue.map fun _ _ => ⟨rfl, trivial⟩
  | expand => exact (hexpansion owner).map fun _ hvalue => ⟨rfl, hvalue⟩
  | filter => exact (Expression.yields_parseFilter _ _ _).map fun _ hvalue => ⟨rfl, hvalue⟩
  | levels => exact Levels.yields_parse.map fun _ hvalue => ⟨rfl, hvalue⟩
  | orderBy => exact (OrderBy.yields_parse _ _ _).map fun _ hvalue => ⟨rfl, hvalue⟩
  | search => exact (SearchExpression.yields_parse _ _).map fun _ hvalue => ⟨rfl, hvalue⟩
  | select => exact (Select.yields_parse _ _ _).map fun _ hvalue => ⟨rfl, hvalue⟩
  | skip => exact (yields_wholeNumber _ _).map fun _ hvalue => ⟨rfl, hvalue.1⟩
  | top => exact (yields_wholeNumber _ _).map fun _ hvalue => ⟨rfl, hvalue.1⟩

/-- An option is of the kind that its value is parsed for, whatever the expansions are. -/
theorem SystemOption.yields_kind (scope : Scope) (expansion : StructuredType → Parser Expansion)
    (owner : StructuredType) (kind : OptionKind) :
    Yields (fun _ => True) (parseValue scope expansion owner kind) fun option => option.kind = kind :=
  (yields_parseValue (fun _ => yields_any _) owner kind).mono fun _ hoption => hoption.1

end Values

/-! ## Sets of options -/

namespace OptionSet

variable {Expansion : Type} {words : Vocabulary} {P : SystemOption Expansion → Prop}

/-- An insertion that is refused leaves the set as it was. -/
theorem insert_getD (options : OptionSet Expansion) (option : SystemOption Expansion) :
    ((options.insert option).toOption.getD options) =
      if options.contains option.kind then options else options.set option := by
  rw [insert]
  split <;> rfl

/-- An option that is inserted is found under its kind, unless there is one already. -/
theorem get?_insert_getD (options : OptionSet Expansion) (option : SystemOption Expansion)
    (kind : OptionKind) :
    ((options.insert option).toOption.getD options).get? kind =
      (options.get? kind).or (if option.kind = kind then some option else none) := by
  rw [insert_getD]
  by_cases hkind : option.kind = kind
  · subst hkind
    cases hget : options.get? option.kind with
    | some found => simp [contains, hget]
    | none => simp [contains, hget, get?_set]
  · rw [if_neg hkind, Option.or_none]
    split
    · rfl
    · rw [get?_set, if_neg hkind]

/-- The set of a list has the first option of each kind. -/
theorem get?_ofList (list : List (SystemOption Expansion)) (kind : OptionKind) :
    (ofList list).get? kind = list.find? fun option => option.kind = kind := by
  have hrun : ∀ start : OptionSet Expansion,
      (list.foldl (fun set option => (set.insert option).toOption.getD set) start).get? kind =
        (start.get? kind).or (list.find? fun option => option.kind = kind) := by
    induction list with
    | nil => simp
    | cons option list ih =>
      intro start
      rw [List.foldl_cons, ih, get?_insert_getD, Option.or_assoc]
      by_cases hkind : option.kind = kind <;> simp [hkind]
  rw [ofList, hrun empty]
  cases kind <;> rfl

/-- An option that is added joins those that were in the set. -/
theorem insert_eq_ok_iff {options next : OptionSet Expansion} {option : SystemOption Expansion} :
    options.insert option = .ok next ↔
      options.contains option.kind = false ∧ next = options.set option := by
  rw [insert]
  cases options.contains option.kind with
  | true => simp
  | false => simp [eq_comm]

theorem insert_eq_error_iff {options : OptionSet Expansion} {option rejected : SystemOption Expansion} :
    options.insert option = .error rejected ↔
      options.contains option.kind = true ∧ rejected = option := by
  rw [insert]
  cases options.contains option.kind with
  | true => simp [eq_comm]
  | false => simp

theorem allows_of_allowedKind? {context : OptionContext} {token : Token} {kind : OptionKind}
    (hkind : allowedKind? context token = some kind) : context.allows kind = true := by
  rw [allowedKind?] at hkind
  split at hkind
  · split at hkind
    · next hallows =>
      cases hkind
      exact hallows
    · cases hkind
  · cases hkind

variable {value : OptionKind → Parser (SystemOption Expansion)}

/-- Of each kind, the set behind an insertion has what it had, or else the new option. -/
theorem get?_of_insert {options next : OptionSet Expansion} {option : SystemOption Expansion}
    (hinsert : options.insert option = .ok next) (kind : OptionKind) :
    next.get? kind = (options.get? kind).or (if option.kind = kind then some option else none) := by
  rw [← get?_insert_getD, hinsert]
  rfl

/-- What is known of all options of a set is known of those of a larger one. -/
theorem forall_get?_of_insert {Q : OptionKind → SystemOption Expansion → Prop}
    {options next : OptionSet Expansion} {option : SystemOption Expansion}
    (hoptions : ∀ kind option, options.get? kind = some option → Q kind option)
    (hoption : Q option.kind option) (hinsert : options.insert option = .ok next) :
    ∀ kind option, next.get? kind = some option → Q kind option := by
  obtain ⟨-, rfl⟩ := insert_eq_ok_iff.mp hinsert
  intro kind found hget
  rw [get?_set] at hget
  split at hget
  · next hkind =>
    cases hget
    exact hkind ▸ hoption
  · exact hoptions kind found hget

theorem yields_parseOption
    (hvalue : ∀ kind, Yields words (value kind) fun option => option.kind = kind ∧ P option)
    (context : OptionContext) {gathered : Gathered Expansion}
    (hgathered : ∀ kind option, gathered.options.get? kind = some option →
      context.allows kind = true ∧ P option) :
    Yields words (parseOption value context gathered) fun next =>
      ∀ kind option, next.options.get? kind = some option → context.allows kind = true ∧ P option := by
  apply yields_current.bind
  intro keyword _
  cases hkind : allowedKind? context keyword with
  | none => exact yields_failHere _
  | some kind =>
    apply yields_next.bind
    intro _ _
    apply (yields_expect (by decide)).bind
    intro _ _
    apply (hvalue kind).bind
    rintro option ⟨rfl, hoption⟩
    split
    · next hinsert =>
      exact .pure (forall_get?_of_insert hgathered ⟨allows_of_allowedKind? hkind, hoption⟩ hinsert)
    · exact yields_throw _

/-- Each option in parentheses is allowed there and satisfies what its value does. -/
theorem yields_parse
    (hvalue : ∀ kind, Yields words (value kind) fun option => option.kind = kind ∧ P option)
    (context : OptionContext) :
    Yields words (parse value context) fun options =>
      ∀ kind option, options.get? kind = some option → context.allows kind = true ∧ P option := by
  have hnone : ∀ kind option, (empty : OptionSet Expansion).get? kind = some option →
      context.allows kind = true ∧ P option := by
    intro kind option hget
    cases kind <;> cases hget
  apply (yields_accept .openParen).bind
  intro opened _
  cases opened with
  | false => exact .pure hnone
  | true =>
    have hlist : Yields words (separatedFrom (parseOption value context) .semicolon {})
        fun gathered => ∀ kind option, gathered.options.get? kind = some option →
          context.allows kind = true ∧ P option := by
      apply yields_separatedFrom _ .semicolon hnone
      intro gathered hgathered
      exact yields_parseOption hvalue context hgathered
    apply hlist.bind
    intro gathered hgathered
    exact (yields_expect (by decide)).map fun _ _ => hgathered

end OptionSet

end ODataOptions
