import ODataOptions.Proofs.Parser.Whole
import ODataOptions.Proofs.SystemOption.Clauses
import ODataOptions.Proofs.SystemOption.Completeness

/-!
# Single options in parentheses

The options in parentheses are of different kinds.  So where they make a set of one option, this option
stands there alone, and its value is parsed as it is at the end of the input.
-/

namespace ODataOptions

open ODataOptions.Parser

/-- A value that ends before each end of a value is what its own text is read as. -/
theorem Parser.Mirrors.onText_eq_ok_iff_reads {α : Type} {parser : Parser α}
    (hparser : Mirrors .value id parser parser) {kind : OptionKind} {source : String}
    {words : List Word} (hwritten : Written source.toList words) {value : α} :
    (complete kind parser).onText source = .ok value ↔
      Reads parser 0 words Word.EndsValue True (· = value) := by
  constructor
  · intro hrun
    obtain ⟨-, rest, hrun⟩ := Parser.onText_eq_ok_iff.mp hrun
    obtain ⟨hrun, hend⟩ := complete_eq_ok_iff.mp hrun
    obtain ⟨stop, hpasses, hstop⟩ := hwritten.exists_passes
    obtain ⟨others, hothers⟩ := hparser.moves.passes hrun
    rw [hothers.end_unique hpasses hend hstop] at hrun
    exact hparser.reads hrun hpasses (Word.EndsValue.of_endOfInput hstop)
  · intro hreads
    exact (hreads.onText_iff hwritten).mpr trivial

namespace OptionSet

variable {Expansion : Type} {value : OptionKind → Parser (SystemOption Expansion)}
  {context : OptionContext} {option : SystemOption Expansion}

/-! ## Sets of one option -/

theorem eq_of_get?_set_empty {kind : OptionKind} {other : SystemOption Expansion}
    (hget : (empty.set option).get? kind = some other) : other = option := by
  rw [get?_set] at hget
  split at hget
  · exact (Option.some.inj hget).symm
  · cases kind <;> cases hget

/-- Options of different kinds that make a set of one option are this option alone. -/
theorem eq_singleton_of_ofList {options : List (SystemOption Expansion)} (hne : options ≠ [])
    (hkinds : (options.map SystemOption.kind).Nodup) (hset : ofList options = empty.set option) :
    options = [option] := by
  have hall : ∀ other ∈ options, other = option := by
    intro other hmem
    apply eq_of_get?_set_empty
    rw [← hset, get?_ofList_eq_some_iff hkinds]
    exact ⟨hmem, rfl⟩
  obtain ⟨first, others, rfl⟩ := List.exists_cons_of_ne_nil hne
  obtain rfl := hall first List.mem_cons_self
  rw [List.map_cons, List.nodup_cons] at hkinds
  have hnone : others = [] := by
    apply List.eq_nil_iff_forall_not_mem.mpr
    intro other hmem
    refine hkinds.1 ?_
    rw [← hall other (List.mem_cons_of_mem _ hmem)]
    exact List.mem_map_of_mem hmem
  rw [hnone]

theorem toList_set_empty (option : SystemOption Expansion) : (empty.set option).toList = [option] := by
  cases option <;> rfl

/-! ## Options alone -/

/-- Behind its keyword stands the value of the only clause. -/
theorem value_run_of_single (hkinds : ∀ kind, Yields (fun _ => True) (value kind) fun option =>
      option.kind = kind) {kind : OptionKind} {clauses : List (Clause Expansion)} {first last : Cursor}
    (hclauses : Clauses value context clauses first last)
    (hdifferent : (clauses.map Clause.kind).Nodup)
    (hset : ofList (clauses.map Clause.option) = empty.set option)
    (hkeyword : first.current.word = kind.word) :
    value kind first.advance.advance = .ok option last := by
  have hsingle : clauses.map Clause.option = [option] := by
    apply eq_singleton_of_ofList _ _ hset
    · cases hclauses <;> exact List.cons_ne_nil _ _
    · rwa [hclauses.map_kind_option hkinds]
  cases hclauses with
  | more _ _ hrest => cases hrest <;> cases hsingle
  | last hclause =>
    obtain rfl := List.singleton_inj.mp hsingle
    have hallowed := hclause.kind
    rw [← hclause.keyword, allowedKind?, show first.current.kind = .option kind from
      congrArg Word.kind hkeyword] at hallowed
    dsimp only at hallowed
    split at hallowed
    · obtain rfl := Option.some.inj hallowed
      exact hclause.parsed
    · cases hallowed

section Alone

variable (hmirrors : ∀ kind, Mirrors .value id (value kind) (value kind))
  (hkinds : ∀ kind, Yields (fun _ => True) (value kind) fun option => option.kind = kind)
  {kind : OptionKind} {cursor stop : Cursor} {words : List Word} (hdepth : cursor.depth = 0)
  (hpasses : cursor.Passes (.openParen :: kind.word :: .equals :: (words ++ [.closeParen])) stop)
  (hstop : stop.current.kind = .endOfInput)

include hdepth hpasses

/-- The words between the equals sign and the closing parenthesis are those of the value. -/
theorem exists_passes_value : ∃ close, cursor.advance.advance.advance.Passes words close ∧
    close.Passes [.closeParen] stop ∧ close.current.word.EndsValue ∧
      cursor.advance.advance.advance.depth = 0 := by
  obtain ⟨close, hwords, hclose⟩ := hpasses.advance.advance.advance.append
  refine ⟨close, hwords, hclose, ?_, ?_⟩
  · rw [hclose.current_word]
    exact .tail _ (.head _)
  · rw [Cursor.depth_advance, Cursor.depth_advance, Cursor.depth_advance, hdepth]

include hkinds hstop

include hmirrors in
/-- Where the input ends behind the options, the value of the only one ends before the parenthesis. -/
theorem reads_value_of_parse {rest : Cursor}
    (hrun : parse value context cursor = .ok (empty.set option) rest)
    (hend : rest.current.kind = .endOfInput) :
    Reads (value kind) 0 words Word.EndsValue True (· = option) := by
  obtain ⟨close, hwords, hclose, hends, hvalueDepth⟩ := exists_passes_value hdepth hpasses
  have hopen : cursor.current.isA .openParen = true := hpasses.isA_current _
  obtain ⟨clauses, last, hclauses, hcloses, hdifferent, hset, rfl⟩ :=
    exists_clauses_of_parse hmirrors hopen hkinds hrun
  have hvalue := value_run_of_single hkinds hclauses hdifferent hset.symm hpasses.advance.current_word
  -- one token behind the value the input ends, as it does behind the words of the value
  have hkind := Token.kind_ne_endOfInput_of_isA (by decide) hcloses
  obtain ⟨others, hothers⟩ := (hmirrors kind).moves.passes hvalue
  have hbehind : last.Passes [last.current.word] last.advance := .cons rfl hkind (.nil _)
  have hstops : last.advance = stop :=
    (hothers.trans hbehind).end_unique (hwords.trans hclose) hend hstop
  have hlength : last.ahead.length = close.ahead.length := by
    rw [← hbehind.length_add, ← hclose.length_add, hstops]
    rfl
  rw [hothers.eq_of_length hwords hlength] at hvalue
  rw [← hvalueDepth]
  exact (hmirrors kind).reads hvalue hwords hends

omit hstop in
theorem parse_of_reads_value (hallows : context.allows kind = true)
    (hreads : Reads (value kind) 0 words Word.EndsValue True (· = option)) :
    parse value context cursor = .ok (empty.set option) stop := by
  obtain ⟨close, hwords, -, hends, hvalueDepth⟩ := exists_passes_value hdepth hpasses
  obtain ⟨found, hvalue, hfound⟩ := (hreads hvalueDepth hwords hends).1 trivial
  rw [hfound] at hvalue
  obtain ⟨hkind, -⟩ := hkinds kind (Cursor.over_univ _) hvalue
  subst hkind
  have hsingle := toList_set_empty option
  have hne : (empty.set option).toList ≠ [] := by simp [hsingle]
  have hoptions : ∀ other ∈ (empty.set option).toList, context.allows other.kind = true ∧
      Reads (value other.kind) 0 words Word.EndsValue True (· = other) := by
    rw [hsingle]
    rintro _ (_ | ⟨_, ⟨⟩⟩)
    exact ⟨hallows, hreads⟩
  have hparse : Reads (parse value context) 0 _ (fun _ => True) _ (· = empty.set option) :=
    reads_enclosed value hne hoptions
  rw [hsingle] at hparse
  obtain ⟨_, hrun, rfl⟩ := (hparse hdepth hpasses trivial).1 fun _ _ => trivial
  exact hrun

include hmirrors in
/-- An option alone in parentheses is parsed as its value is before each end of a value. -/
theorem parse_eq_ok_iff_reads (hallows : context.allows kind = true) :
    (∃ rest, parse value context cursor = .ok (empty.set option) rest ∧
      rest.current.kind = .endOfInput) ↔
        Reads (value kind) 0 words Word.EndsValue True (· = option) := by
  constructor
  · rintro ⟨rest, hrun, hend⟩
    exact reads_value_of_parse hmirrors hkinds hdepth hpasses hstop hrun hend
  · intro hreads
    exact ⟨stop, parse_of_reads_value hkinds hdepth hpasses hallows hreads, hstop⟩

end Alone

end OptionSet

end ODataOptions
