import ODataOptions.Proofs.OrderBy.Completeness
import ODataOptions.Proofs.Search.Completeness
import ODataOptions.Proofs.Select.Completeness
import ODataOptions.Proofs.SystemOption.Sets

/-!
# Options are read back

The words of an option, and of a set of options in parentheses.  An option is read back exactly if the
limit of levels admits the expressions and searches in its value.  As elsewhere, what is known of
expansions comes in as a parameter.
-/

namespace ODataOptions

open ODataOptions.Parser

/-- What the limit of levels is about: an expression or a search. -/
inductive Criterion
  | expression (value : Expression)
  | search (value : SearchExpression)

/-- The limit admits the canonical text, and no path in it is mistaken for a negation. -/
def Criterion.Fits (limit : Nat) : Criterion → Prop
  | .expression value => value.Fits limit
  | .search value => value.levels ≤ limit

instance (limit : Nat) : (criterion : Criterion) → Decidable (criterion.Fits limit)
  | .expression value => inferInstanceAs (Decidable (value.Fits limit))
  | .search value => inferInstanceAs (Decidable (value.levels ≤ limit))

def Word.number (value : Nat) : Word := ⟨.integer, toString value⟩

theorem writes_number (value : Nat) : Writes (toString value) [.number value] :=
  (isToken_toString_nat value).writes (by decide) (by decide)

namespace OptionKind

def word (kind : OptionKind) : Word := ⟨.option kind, kind.keyword⟩

theorem isToken_word (kind : OptionKind) : kind.word.IsToken := by
  cases kind <;> exact ⟨_, rfl⟩

end OptionKind

/-! ## Simple values -/

section Values

variable {depth : Nat} {follow : Word → Prop}

theorem Parser.reads_wholeNumber {value : Nat} (option : String) {zeroAllowed : Bool}
    (hadmits : admitsNumber zeroAllowed value = true) :
    Reads (wholeNumber option zeroAllowed) depth [.number value] follow True (· = value) := by
  apply reads_expect rfl
  intro token hword
  have hread : (Text.natural? token.text).filter (admitsNumber zeroAllowed) = some value := by
    rw [show token.text = toString value from congrArg Word.text hword, Text.natural?_toString,
      Option.filter, if_pos hadmits]
  simp only [hread]
  exact reads_pure trivial rfl

theorem Parser.reads_truthValue (value : Bool) :
    Reads truthValue depth [.identifier (if value then "true" else "false")] follow True
      (· = value) := by
  cases value with
  | true =>
    apply reads_expect rfl
    intro token hword
    refine reads_pure trivial ?_
    rw [show token.text = "true" from congrArg Word.text hword]
    rfl
  | false =>
    apply reads_expect rfl
    intro token hword
    refine reads_pure trivial ?_
    rw [show token.text = "false" from congrArg Word.text hword]
    rfl

namespace Levels

def words : Levels → List Word
  | .max => [.identifier "max"]
  | .depth count => [.number count]

theorem writes (levels : Levels) : Writes levels.print levels.words := by
  cases levels with
  | max => exact writes_identifier ⟨_, rfl⟩
  | depth count => exact writes_number count

theorem reads_parse {levels : Levels} (hlevels : levels.Valid) :
    Reads parse depth levels.words follow True (· = levels) := by
  cases levels with
  | max => exact reads_accept rfl (reads_pure trivial rfl)
  | depth count =>
    have hadmits : admitsNumber false count = true := by
      rw [admitsNumber, decide_eq_true hlevels.1, decide_eq_true hlevels.2]
      rfl
    exact declines_accept rfl ((reads_wholeNumber _ hadmits).map fun value h => congrArg _ h)

end Levels

end Values

/-! ## Options -/

namespace SystemOption

/-- The words of the value alone, where an expansion is given by its words. -/
def valueWords : SystemOption (List Word) → List Word
  | .count value => [.identifier (if value then "true" else "false")]
  | .expand value => value
  | .filter value => value.words
  | .levels value => value.words
  | .orderBy value => OrderBy.words value
  | .search value => value.words
  | .select value => Select.words value
  | .skip value | .top value => [.number value]

def words (option : SystemOption (List Word)) : List Word :=
  option.kind.word :: .equals :: option.valueWords

/-- The expressions and searches of an option, where an expansion is given by those in it. -/
def criteria : SystemOption (List Criterion) → List Criterion
  | .expand value => value
  | .filter value => [.expression value]
  | .orderBy value => value.map fun key => .expression key.expression
  | .search value => [.search value]
  | .count _ | .levels _ | .select _ | .skip _ | .top _ => []

section Option

variable {Expansion : Type} {scope : Scope} {nested : StructuredType → Expansion → Prop}
  {owner : StructuredType} {option : SystemOption Expansion}
  {expansionWords : Expansion → List Word}

section Text

variable {expansionText : Expansion → String}
  (hnested : ∀ owner value, nested owner value →
    Writes (expansionText value) (expansionWords value))
  (hoption : option.Valid scope Word.IsToken nested owner)

include hnested hoption

theorem writes_value :
    Writes (option.map expansionText).printValue (option.map expansionWords).valueWords := by
  cases option with
  | count value =>
    have hspelled : (Literal.boolean value).Spelled Word.IsToken := trivial
    exact Literal.writes hspelled
  | expand value => exact hnested owner value hoption
  | filter value => exact Expression.writes hoption.2.1
  | levels value => exact value.writes
  | orderBy value => exact OrderBy.writes hoption
  | search value => exact SearchExpression.writes hoption
  | select value => exact Select.writes hoption
  | skip value | top value => exact writes_number value

theorem writes : Writes (option.map expansionText).print (option.map expansionWords).words := by
  have hkeyword : Writes option.kind.keyword [option.kind.word] :=
    option.kind.isToken_word.writes (by simp) (by simp)
  have hall := (hkeyword.append_opens delimits_equals opens_equals).append_writes
    (writes_value hnested hoption)
  rw [print, words, kind_map, kind_map]
  exact hall

end Text

/-- A valid value is read back up to the word that ends it. -/
theorem reads_parseValue {expansion : StructuredType → Parser Expansion}
    {expansionCriteria : Expansion → List Criterion}
    (hnested : ∀ owner value, nested owner value →
      Reads (expansion owner) 0 (expansionWords value) Word.EndsValue
        (∀ criterion ∈ expansionCriteria value, criterion.Fits scope.limits.expressionDepth)
        (· = value))
    (hoption : option.Valid scope Word.IsToken nested owner) :
    Reads (parseValue scope expansion owner option.kind) 0 (option.map expansionWords).valueWords
      Word.EndsValue
      (∀ criterion ∈ (option.map expansionCriteria).criteria,
        criterion.Fits scope.limits.expressionDepth) (· = option) := by
  cases option with
  | count value => exact (reads_truthValue value).map_eq (by simp [SystemOption.map, criteria])
  | expand value => exact (hnested owner value hoption).map_eq Iff.rfl
  | filter value =>
    exact (Expression.reads_parseFilter hoption fun word hword => Word.EndsItem.ends (.inr hword)).map_eq
      (by simp [SystemOption.map, criteria, Criterion.Fits])
  | levels value => exact (Levels.reads_parse hoption).map_eq (by simp [SystemOption.map, criteria])
  | orderBy value =>
    exact (OrderBy.reads_parse hoption).map_eq
      (by simp [SystemOption.map, criteria, Criterion.Fits])
  | search value =>
    exact (SearchExpression.reads_parse hoption).map_eq
      (by simp [SystemOption.map, criteria, Criterion.Fits])
  | select value => exact (Select.reads_parse hoption).map_eq (by simp [SystemOption.map, criteria])
  | skip value | top value =>
    have hadmits : admitsNumber true value = true := by
      have hfits : value < UInt32.size := hoption
      rw [admitsNumber, decide_eq_true hfits]
      rfl
    exact (reads_wholeNumber _ hadmits).map_eq (by simp [SystemOption.map, criteria])

end Option

end SystemOption

/-! ## Sets of options -/

namespace OptionSet

def words (options : OptionSet (List Word)) : List Word :=
  if options.isEmpty then []
  else .openParen :: Word.joined .semicolon (options.toList.map SystemOption.words) ++ [.closeParen]

def criteria (options : OptionSet (List Criterion)) : List Criterion :=
  options.toList.flatMap SystemOption.criteria

section Lists

variable {Expansion : Type} {value : OptionKind → Parser (SystemOption Expansion)}
  {context : OptionContext} {gathered : Gathered Expansion} {option : SystemOption Expansion}
  {text : SystemOption Expansion → List Word} {fits : SystemOption Expansion → Prop}

theorem reads_parseOption
    (hvalue : Reads (value option.kind) 0 (text option) Word.EndsValue (fits option) (· = option))
    (hallows : context.allows option.kind = true)
    (hfree : gathered.options.contains option.kind = false) :
    Reads (parseOption value context gathered) 0 (option.kind.word :: .equals :: text option)
      Word.EndsValue (fits option) fun next => next.options = gathered.options.set option := by
  refine reads_current (R := (· = option.kind.word)) rfl ?_
  intro keyword hword
  have hkind : keyword.kind = .option option.kind := congrArg Word.kind hword
  have hallowed : allowedKind? context keyword = some option.kind := by
    simp [allowedKind?, hkind, hallows]
  rw [hallowed]
  apply reads_next
  intro _ _
  apply reads_expect rfl
  intro _ _
  apply hvalue.bind_end fun _ hword => hword
  rintro _ rfl
  rw [insert_eq_ok_iff.mpr ⟨hfree, rfl⟩]
  exact reads_pure trivial rfl

/-- Options of different kinds are read one after the other, and what is gathered are just they. -/
theorem reads_list (value : OptionKind → Parser (SystemOption Expansion))
    {options : List (SystemOption Expansion)} (hne : options ≠ [])
    (hkinds : options.Pairwise fun first second => first.kind ≠ second.kind)
    (hoptions : ∀ option ∈ options, context.allows option.kind = true ∧
      Reads (value option.kind) 0 (text option) Word.EndsValue (fits option) (· = option)) :
    Reads (separatedFrom (parseOption value context) .semicolon {}) 0
      (Word.joined .semicolon
        (options.map fun option => option.kind.word :: .equals :: text option))
      (· = .closeParen) (∀ option ∈ options, fits option)
      fun gathered => ∀ kind,
        gathered.options.get? kind = options.find? fun option => option.kind = kind := by
  have hends : ∀ word : Word, word = .closeParen → word.isA .semicolon = false := by
    rintro _ rfl
    rfl
  apply Reads.separatedFrom rfl hends
    (I := fun before (gathered : Gathered Expansion) => ∀ kind,
      gathered.options.get? kind = before.find? fun option => option.kind = kind)
  · intro before option behind gathered hsplit hgathered
    subst hsplit
    obtain ⟨hallows, hvalue⟩ := hoptions option (by simp)
    have hfree : gathered.options.contains option.kind = false := by
      rw [contains, hgathered, Option.isSome_eq_false_iff, Option.isNone_iff_eq_none, List.find?_eq_none]
      intro other hother
      have hdifferent := (List.pairwise_append.mp hkinds).2.2 other hother option List.mem_cons_self
      simpa using hdifferent
    refine (reads_parseOption hvalue hallows hfree).mono ?_ Iff.rfl ?_
    · rintro _ (rfl | rfl)
      · exact .head _
      · exact .tail _ (.head _)
    · intro next hnext kind
      have hinsert := insert_eq_ok_iff.mpr ⟨hfree, hnext⟩
      rw [get?_of_insert hinsert, hgathered, List.find?_append, List.find?_singleton]
      simp only [decide_eq_true_eq]
  · exact hne
  · intro kind
    cases kind <;> rfl

/-- In parentheses they are read as the set that has just them. -/
theorem reads_enclosed {follow : Word → Prop} (value : OptionKind → Parser (SystemOption Expansion))
    {options : OptionSet Expansion} (hne : options.toList ≠ [])
    (hoptions : ∀ option ∈ options.toList, context.allows option.kind = true ∧
      Reads (value option.kind) 0 (text option) Word.EndsValue (fits option) (· = option)) :
    Reads (parse value context) 0
      (.openParen :: Word.joined .semicolon
        (options.toList.map fun option => option.kind.word :: .equals :: text option) ++ [.closeParen])
      follow (∀ option ∈ options.toList, fits option) (· = options) := by
  have hlist := reads_list value hne options.pairwise_kind_ne hoptions
  apply reads_accept rfl
  refine hlist.bind_rest rfl ?_
  intro gathered hgathered
  apply reads_expect rfl
  intro _ _
  apply reads_pure trivial
  apply ext_get?
  intro kind
  rw [hgathered, find?_toList]

end Lists

section Sets

variable {Expansion : Type} {scope : Scope} {nested : StructuredType → Expansion → Prop}
  {owner : StructuredType} {context : OptionContext} {options : OptionSet Expansion}
  {expansionWords : Expansion → List Word}

theorem isEmpty_map {Other : Type} (f : Expansion → Other) (options : OptionSet Expansion) :
    (options.map f).isEmpty = options.isEmpty := by
  rw [isEmpty, isEmpty, toList_map, List.isEmpty_map]

theorem words_map (options : OptionSet Expansion) (expansionWords : Expansion → List Word) :
    (options.map expansionWords).words =
      if options.isEmpty then []
      else .openParen :: Word.joined .semicolon (options.toList.map fun option =>
        option.kind.word :: .equals :: (option.map expansionWords).valueWords) ++ [.closeParen] := by
  rw [words, isEmpty_map, toList_map, List.map_map]
  have hwords : ∀ option : SystemOption Expansion,
      (option.map expansionWords).words =
        option.kind.word :: .equals :: (option.map expansionWords).valueWords := by
    intro option
    rw [SystemOption.words, SystemOption.kind_map]
  simp only [Function.comp_def, hwords]

theorem writes {expansionText : Expansion → String}
    (hnested : ∀ owner value, nested owner value →
      Writes (expansionText value) (expansionWords value))
    (hoptions : options.Valid scope Word.IsToken nested owner context) :
    Writes (if options.isEmpty then "" else "(" ++ (options.map expansionText).print ++ ")")
      (options.map expansionWords).words := by
  rw [words, isEmpty_map]
  split
  · exact writes_empty
  · have hall : ∀ option ∈ options.toList,
        Writes (option.map expansionText).print (option.map expansionWords).words := by
      intro option hmem
      exact SystemOption.writes hnested (hoptions _ _ (mem_toList.mp hmem)).2
    have hlist := writes_intercalate .semicolon delimits_semicolon opens_semicolon
      (forall₂_writes hall)
    have hparens := (opens_openParen.append_writes hlist).append delimits_closeParen
      opens_closeParen.writes
    rw [print, toList_map, toList_map, List.map_map, List.map_map]
    exact hparens

theorem reads_parse {expansion : StructuredType → Parser Expansion}
    {expansionCriteria : Expansion → List Criterion} {follow : Word → Prop}
    (hnested : ∀ owner value, nested owner value →
      Reads (expansion owner) 0 (expansionWords value) Word.EndsValue
        (∀ criterion ∈ expansionCriteria value, criterion.Fits scope.limits.expressionDepth)
        (· = value))
    (hoptions : options.Valid scope Word.IsToken nested owner context)
    (hfollow : ∀ word, follow word → word.kind ≠ .openParen) :
    Reads (parse (SystemOption.parseValue scope expansion owner) context) 0
      (options.map expansionWords).words follow
      (∀ criterion ∈ (options.map expansionCriteria).criteria,
        criterion.Fits scope.limits.expressionDepth) (· = options) := by
  have hfits : (∀ criterion ∈ (options.map expansionCriteria).criteria,
        criterion.Fits scope.limits.expressionDepth) ↔
      ∀ option ∈ options.toList, ∀ criterion ∈ (option.map expansionCriteria).criteria,
        criterion.Fits scope.limits.expressionDepth := by
    rw [criteria, toList_map, List.forall_mem_flatMap, List.forall_mem_map]
  rw [words_map]
  refine Reads.congr_fits ?_ hfits
  split
  · next hempty =>
    have hlist : options.toList = [] := List.isEmpty_iff.mp hempty
    refine declines_accept (fun word hword => Word.isA_eq_false rfl (hfollow word hword)) ?_
    exact reads_pure (by simp [hlist]) (isEmpty_iff.mp hempty).symm
  · next hempty =>
    have hne : options.toList ≠ [] := fun hlist => hempty (List.isEmpty_iff.mpr hlist)
    apply reads_enclosed _ hne
    intro option hmem
    obtain ⟨hallows, hvalid⟩ := hoptions _ _ (mem_toList.mp hmem)
    exact ⟨hallows, SystemOption.reads_parseValue hnested hvalid⟩

end Sets

end OptionSet

end ODataOptions
