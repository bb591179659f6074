import ODataOptions.Proofs.Expand.Mirrors
import ODataOptions.Proofs.SystemOption.Sets

/-!
# Clauses in parentheses

The options in parentheses are written as clauses with semicolons between them.  Each clause is a
keyword, an equals sign and a value, and it is parsed for itself: of the clauses before it, only the
kinds and the places of the keywords matter.  So clauses of different kinds make the set of their options,
and otherwise the first clause that repeats a kind is reported together with the earlier one.
-/

namespace ODataOptions

open ODataOptions.Parser

/-- An option as it is written in parentheses. -/
structure Clause (Expansion : Type) where
  /-- The token that names the option. -/
  keyword : Token
  kind : OptionKind
  /-- The words of the value. -/
  value : List Word
  /-- What the value is parsed as. -/
  option : SystemOption Expansion

namespace Clause

variable {Expansion : Type}

def words (clause : Clause Expansion) : List Word := clause.keyword.word :: .equals :: clause.value

/-- The kind of the clause and the place of its keyword. -/
def place (clause : Clause Expansion) : OptionKind × Span := (clause.kind, clause.keyword.span)

/-- The clause up to the place of its keyword. -/
def content (clause : Clause Expansion) : OptionKind × List Word × SystemOption Expansion :=
  (clause.kind, clause.value, clause.option)

/-- In the list of clauses, the later clause is the first that has the kind of one before it. -/
def FirstRepetition (clauses : List (Clause Expansion)) (earlier later : Clause Expansion) : Prop :=
  ∃ before behind, clauses = before ++ later :: behind ∧ (before.map kind).Nodup ∧
    earlier ∈ before ∧ earlier.kind = later.kind

/-- The fault says of the later clause that the earlier one is of its kind. -/
structure ReportedBy (earlier later : Clause Expansion) (fault : Fault) : Prop where
  key : fault.key = .doubleOption
  parameters : fault.parameters = [later.kind.keyword]
  span : fault.span = later.keyword.span
  related : fault.related = some (earlier.keyword.span, "first given here")

end Clause

section Clauses

variable {Expansion : Type} (value : OptionKind → Parser (SystemOption Expansion))
  (context : OptionContext)

/-- The clause stands at the first cursor, and its value is parsed up to the last one. -/
structure Clause.Stands (clause : Clause Expansion) (first last : Cursor) : Prop where
  keyword : first.current = clause.keyword
  kind : OptionSet.allowedKind? context clause.keyword = some clause.kind
  equals : first.advance.current.isA .equals = true
  words : first.advance.advance.Passes clause.value last
  parsed : value clause.kind first.advance.advance = .ok clause.option last

/-- The clauses stand one behind the other from the first cursor up to the last one, with semicolons
between them. -/
inductive Clauses : List (Clause Expansion) → Cursor → Cursor → Prop
  | last {clause : Clause Expansion} {first last : Cursor}
      (hclause : clause.Stands value context first last) : Clauses [clause] first last
  | more {clause : Clause Expansion} {clauses : List (Clause Expansion)} {first middle last : Cursor}
      (hclause : clause.Stands value context first middle)
      (hsemicolon : middle.current.isA .semicolon = true)
      (hrest : Clauses clauses middle.advance last) : Clauses (clause :: clauses) first last

end Clauses

section

variable {Expansion : Type} {value : OptionKind → Parser (SystemOption Expansion)}
  {context : OptionContext} {clause : Clause Expansion} {clauses : List (Clause Expansion)}
  {first last close : Cursor}

theorem Token.endsValue_of_isA {token : Token} {kind : TokenKind}
    (hkind : kind ∈ [TokenKind.semicolon, .closeParen]) (hisA : token.isA kind = true) :
    token.word.EndsValue := by
  have hplain : kind.contextualWords? = none := by
    simp only [List.mem_cons, List.not_mem_nil, or_false] at hkind
    rcases hkind with rfl | rfl <;> rfl
  rw [Word.EndsValue, Token.word_kind, (Token.isA_iff_kind_eq hplain).mp hisA]
  exact List.mem_append_left [.endOfInput] hkind

theorem Clause.Stands.depth_eq (hclause : clause.Stands value context first last) :
    last.depth = first.depth := by
  rw [hclause.words.depth_eq, Cursor.depth_advance, Cursor.depth_advance]

/-- Each of the clauses stands before the end of a value, with as many levels open as the first one. -/
theorem Clauses.exists_stands (hclauses : Clauses value context clauses first close)
    (hclose : close.current.isA .closeParen = true) :
    ∀ clause ∈ clauses, ∃ start last, clause.Stands value context start last ∧
      start.depth = first.depth ∧ last.current.word.EndsValue := by
  induction hclauses with
  | last hclause =>
    intro clause hmem
    cases List.mem_singleton.mp hmem
    exact ⟨_, _, hclause, rfl, Token.endsValue_of_isA (by decide) hclose⟩
  | more hclause hsemicolon _ ih =>
    refine List.forall_mem_cons.mpr
      ⟨⟨_, _, hclause, rfl, Token.endsValue_of_isA (by decide) hsemicolon⟩, ?_⟩
    intro other hmem
    obtain ⟨start, last, hother, hdepth, hends⟩ := ih hclose other hmem
    refine ⟨start, last, hother, ?_, hends⟩
    rw [hdepth, Cursor.depth_advance, hclause.depth_eq]

theorem Clauses.map_kind_option
    (hkinds : ∀ kind, Yields (fun _ => True) (value kind) fun option => option.kind = kind)
    (hclauses : Clauses value context clauses first close) :
    (clauses.map Clause.option).map SystemOption.kind = clauses.map Clause.kind := by
  induction hclauses with
  | last hclause =>
    have hkind := (hkinds _ (Cursor.over_univ _) hclause.parsed).1
    exact congrArg (fun kind => [kind]) hkind
  | more hclause _ _ ih =>
    have hkind := (hkinds _ (Cursor.over_univ _) hclause.parsed).1
    exact congrArg₂ List.cons hkind ih

/-- The first option of a kind is that of the first clause of the kind. -/
theorem Clauses.find?_map_option
    (hkinds : ∀ kind, Yields (fun _ => True) (value kind) fun option => option.kind = kind)
    (hclauses : Clauses value context clauses first close) (kind : OptionKind) :
    ((clauses.map Clause.option).find? fun option => option.kind = kind) =
      (clauses.find? fun clause => clause.kind = kind).map Clause.option := by
  have hsame := hclauses.map_kind_option hkinds
  rw [List.map_map] at hsame
  rw [List.find?_map, ← List.head?_filter, ← List.head?_filter]
  apply congrArg fun found : List (Clause Expansion) => found.head?.map Clause.option
  apply List.filter_congr
  intro clause hmem
  have hkind : clause.option.kind = clause.kind := List.map_inj_left.mp hsame clause hmem
  rw [Function.comp_apply, hkind]

end

namespace OptionSet

variable {Expansion : Type} {value : OptionKind → Parser (SystemOption Expansion)}
  {context : OptionContext} {clause : Clause Expansion} {clauses seen : List (Clause Expansion)}
  {gathered : Gathered Expansion} {cursor first last close : Cursor}

/-! ## The two stores -/

namespace Gathered

/-- The two stores are in step: they know of the same kinds. -/
def InStep (gathered : Gathered Expansion) : Prop :=
  ∀ kind, (gathered.places.lookup kind).isSome = gathered.options.contains kind

/-- Of each kind, the set has the option of the first of the clauses, and the place is that of its keyword. -/
structure TellsOf (gathered : Gathered Expansion) (clauses : List (Clause Expansion)) : Prop where
  get? : ∀ kind, gathered.options.get? kind =
    (clauses.find? fun clause => clause.kind = kind).map Clause.option
  lookup : ∀ kind, gathered.places.lookup kind =
    (clauses.find? fun clause => clause.kind = kind).map fun clause => clause.keyword.span

theorem tellsOf_nil : TellsOf ({} : Gathered Expansion) [] := by
  constructor
  · intro kind
    cases kind <;> rfl
  · intro kind
    rfl

/-- Stores that tell of the same clauses are in step. -/
theorem TellsOf.inStep (htells : gathered.TellsOf seen) : gathered.InStep := by
  intro kind
  rw [htells.lookup, contains, htells.get?, Option.isSome_map, Option.isSome_map]

/-- The set has an option of a kind exactly if one of the clauses is of it. -/
theorem TellsOf.contains_iff (htells : gathered.TellsOf seen) (kind : OptionKind) :
    gathered.options.contains kind = true ↔ kind ∈ seen.map Clause.kind := by
  rw [contains, htells.get?, Option.isSome_map, List.find?_isSome, List.mem_map]
  simp only [decide_eq_true_eq]

/-- A clause of a new kind joins both stores. -/
theorem TellsOf.append (htells : gathered.TellsOf seen) (hkind : clause.option.kind = clause.kind)
    {options : OptionSet Expansion} (hinsert : gathered.options.insert clause.option = .ok options) :
    TellsOf ⟨options, clause.place :: gathered.places⟩ (seen ++ [clause]) := by
  constructor
  · intro kind
    rw [get?_of_insert hinsert, htells.get?, hkind, List.find?_append, List.find?_singleton,
      Option.map_or]
    by_cases hsame : clause.kind = kind <;> simp [hsame]
  · intro kind
    rw [List.find?_append, List.find?_singleton, Option.map_or, Clause.place, List.lookup_cons]
    by_cases hsame : clause.kind = kind
    · subst hsame
      have hfree : gathered.options.contains clause.kind = false := by
        rw [← hkind]
        exact (insert_eq_ok_iff.mp hinsert).1
      rw [contains, htells.get?, Option.isSome_map, Option.isSome_eq_false_iff,
        Option.isNone_iff_eq_none] at hfree
      simp [hfree]
    · have hother : (kind == clause.kind) = false := by simpa using Ne.symm hsame
      rw [hother, htells.lookup]
      simp [hsame]

/-- A clause of a kind that was given before is reported together with the first one of the kind. -/
theorem TellsOf.exists_reportedBy (htells : gathered.TellsOf seen)
    (hgiven : clause.kind ∈ seen.map Clause.kind) :
    ∃ earlier ∈ seen, earlier.kind = clause.kind ∧
      Clause.ReportedBy earlier clause (gathered.repetition clause.kind clause.keyword) := by
  -- the set knows of the kind, so the places do too
  rw [← htells.contains_iff, ← htells.inStep, htells.lookup, Option.isSome_map] at hgiven
  obtain ⟨earlier, hfound⟩ := Option.isSome_iff_exists.mp hgiven
  have hkind : earlier.kind = clause.kind := by simpa using List.find?_some hfound
  refine ⟨earlier, List.mem_of_find?_eq_some hfound, hkind, ?_⟩
  rw [repetition, htells.lookup, hfound]
  exact ⟨rfl, rfl, rfl, rfl⟩

end Gathered

/-! ## One clause -/

/-- The option of the clause is added to the set, or else the clause is reported. -/
theorem parseOption_run (hclause : clause.Stands value context first last)
    (gathered : Gathered Expansion) :
    parseOption value context gathered first =
      match gathered.options.insert clause.option with
      | .ok options => .ok { options, places := clause.place :: gathered.places } last
      | .error _ => .error (gathered.repetition clause.kind clause.keyword) last := by
  rw [parseOption, bind_run, current_run]
  dsimp only
  rw [hclause.keyword, hclause.kind]
  dsimp only
  rw [bind_run, next_run]
  dsimp only
  rw [bind_run, expect_run, if_pos hclause.equals]
  dsimp only
  rw [bind_run, hclause.parsed]
  dsimp only
  cases gathered.options.insert clause.option <;> rfl

section Step

variable (hclause : clause.Stands value context first last) (hkind : clause.option.kind = clause.kind)
  (htells : gathered.TellsOf seen)

include hclause hkind htells

/-- A step: behind a clause of a new kind, both stores tell of it too. -/
theorem parseOption_run_of_new (hnew : clause.kind ∉ seen.map Clause.kind) :
    ∃ next, parseOption value context gathered first = .ok next last ∧
      next.TellsOf (seen ++ [clause]) := by
  have hfree : gathered.options.contains clause.option.kind = false := by
    rw [← htells.contains_iff, ← hkind, Bool.not_eq_true] at hnew
    exact hnew
  have hinsert := insert_eq_ok_iff.mpr ⟨hfree, rfl⟩
  refine ⟨_, ?_, htells.append hkind hinsert⟩
  rw [parseOption_run hclause, hinsert]

/-- No step: a clause of a kind that was given before is reported, and the first one with it. -/
theorem parseOption_run_of_given (hgiven : clause.kind ∈ seen.map Clause.kind) :
    ∃ earlier ∈ seen, ∃ fault, earlier.kind = clause.kind ∧ Clause.ReportedBy earlier clause fault ∧
      parseOption value context gathered first = .error fault last := by
  obtain ⟨earlier, hmem, hearlier, hreported⟩ := htells.exists_reportedBy hgiven
  have htaken : gathered.options.contains clause.option.kind = true := by
    rw [hkind]
    exact (htells.contains_iff clause.kind).mpr hgiven
  have hinsert := insert_eq_error_iff.mpr ⟨htaken, rfl⟩
  refine ⟨earlier, hmem, _, hearlier, hreported, ?_⟩
  rw [parseOption_run hclause, hinsert]

end Step

/-! ## The loop -/

section Loop

variable (hvalue : ∀ kind, Mirrors .value id (value kind) (value kind))

theorem not_mem_of_nodup (hkinds : ((seen ++ clause :: clauses).map Clause.kind).Nodup) :
    clause.kind ∉ seen.map Clause.kind := by
  intro hmem
  rw [List.map_append, List.map_cons] at hkinds
  exact (List.nodup_append.mp hkinds).2.2 _ hmem _ List.mem_cons_self rfl

theorem nodup_append_singleton (hseen : (seen.map Clause.kind).Nodup)
    (hnew : clause.kind ∉ seen.map Clause.kind) : ((seen ++ [clause]).map Clause.kind).Nodup := by
  rw [List.map_append, List.map_singleton, ← List.concat_eq_append]
  exact hseen.concat hnew

include hvalue

theorem moves_parseOption (gathered : Gathered Expansion) :
    Moves (parseOption value context gathered) :=
  (mirrors_parseOption hvalue context rfl).moves

section Run

variable (hoptions : ∀ kind, Yields (fun _ => True) (value kind) fun option => option.kind = kind)

include hoptions

/-- A run: behind clauses of other kinds, clauses of different kinds are parsed one after the other, and both
stores tell of all of them. -/
theorem run_of_nodup (hclauses : Clauses value context clauses first close)
    (hclose : close.current.isA .closeParen = true) (htells : gathered.TellsOf seen)
    (hkinds : ((seen ++ clauses).map Clause.kind).Nodup) :
    ∃ next, separatedFrom (parseOption value context) .semicolon gathered first = .ok next close ∧
      next.TellsOf (seen ++ clauses) := by
  have hend : TokenKind.semicolon ≠ .endOfInput := by decide
  induction hclauses generalizing gathered seen with
  | @last clause first last hclause =>
    obtain ⟨hkind, -⟩ := hoptions _ (Cursor.over_univ _) hclause.parsed
    obtain ⟨next, hrun, hnext⟩ := parseOption_run_of_new hclause hkind htells (not_mem_of_nodup hkinds)
    have hparen : last.current.kind = .closeParen := (Token.isA_iff_kind_eq rfl).mp hclose
    have hlast : last.current.isA .semicolon = false := by
      rw [← Token.isA_word]
      exact Word.isA_eq_false rfl (by simp [hparen])
    refine ⟨next, ?_, hnext⟩
    rw [separatedFrom_run (moves_parseOption hvalue) hend, hrun]
    dsimp only
    rw [hlast, if_neg Bool.false_ne_true]
  | @more clause clauses first middle last hclause hsemicolon hrest ih =>
    obtain ⟨hkind, -⟩ := hoptions _ (Cursor.over_univ _) hclause.parsed
    obtain ⟨next, hrun, hnext⟩ := parseOption_run_of_new hclause hkind htells (not_mem_of_nodup hkinds)
    rw [List.append_cons] at hkinds ⊢
    obtain ⟨behind, hbehind, htells⟩ := ih hclose hnext hkinds
    refine ⟨behind, ?_, htells⟩
    rw [separatedFrom_run (moves_parseOption hvalue) hend, hrun]
    dsimp only
    rw [if_pos hsemicolon, hbehind]

omit hoptions in
/-- A clause of a kind that was given before is reported, whatever stands behind it. -/
theorem exists_fault_of_given (hclause : clause.Stands value context first last)
    (hkind : clause.option.kind = clause.kind) (htells : gathered.TellsOf seen)
    (hseen : (seen.map Clause.kind).Nodup) (hgiven : clause.kind ∈ seen.map Clause.kind)
    (behind : List (Clause Expansion)) :
    ∃ earlier later fault rest, Clause.FirstRepetition (seen ++ clause :: behind) earlier later ∧
      Clause.ReportedBy earlier later fault ∧
      separatedFrom (parseOption value context) .semicolon gathered first = .error fault rest := by
  obtain ⟨earlier, hmem, fault, hsame, hreported, hrun⟩ :=
    parseOption_run_of_given hclause hkind htells hgiven
  refine ⟨earlier, clause, fault, last, ⟨seen, behind, rfl, hseen, hmem, hsame⟩, hreported, ?_⟩
  rw [separatedFrom_run (moves_parseOption hvalue) (by decide), hrun]

/-- Where a kind is repeated, the first repetition is reported. -/
theorem exists_fault_of_not_nodup (hclauses : Clauses value context clauses first close)
    (htells : gathered.TellsOf seen) (hseen : (seen.map Clause.kind).Nodup)
    (hkinds : ¬ ((seen ++ clauses).map Clause.kind).Nodup) :
    ∃ earlier later fault rest, Clause.FirstRepetition (seen ++ clauses) earlier later ∧
      Clause.ReportedBy earlier later fault ∧
      separatedFrom (parseOption value context) .semicolon gathered first = .error fault rest := by
  induction hclauses generalizing gathered seen with
  | @last clause first last hclause =>
    obtain ⟨hkind, -⟩ := hoptions _ (Cursor.over_univ _) hclause.parsed
    by_cases hgiven : clause.kind ∈ seen.map Clause.kind
    · exact exists_fault_of_given hvalue hclause hkind htells hseen hgiven []
    · exact absurd (nodup_append_singleton hseen hgiven) hkinds
  | @more clause clauses first middle last hclause hsemicolon hrest ih =>
    obtain ⟨hkind, -⟩ := hoptions _ (Cursor.over_univ _) hclause.parsed
    by_cases hgiven : clause.kind ∈ seen.map Clause.kind
    · exact exists_fault_of_given hvalue hclause hkind htells hseen hgiven clauses
    · obtain ⟨next, hrun, hnext⟩ := parseOption_run_of_new hclause hkind htells hgiven
      rw [List.append_cons] at hkinds ⊢
      obtain ⟨earlier, later, fault, rest, hfirst, hreported, hbehind⟩ :=
        ih hnext (nodup_append_singleton hseen hgiven) hkinds
      refine ⟨earlier, later, fault, rest, hfirst, hreported, ?_⟩
      rw [separatedFrom_run (moves_parseOption hvalue) (by decide), hrun]
      dsimp only
      rw [if_pos hsemicolon, hbehind]

end Run

/-- An option that is parsed is that of a clause. -/
theorem exists_stands_of_parseOption {next : Gathered Expansion} {rest : Cursor}
    (hrun : parseOption value context gathered first = .ok next rest) :
    ∃ clause : Clause Expansion, clause.Stands value context first rest := by
  obtain ⟨keyword, middle, hcurrent, hrun⟩ := bind_eq_ok_iff.mp hrun
  cases hcurrent
  cases hallowed : allowedKind? context first.current with
  | none =>
    rw [hallowed] at hrun
    cases hrun
  | some kind =>
    rw [hallowed] at hrun
    obtain ⟨_, middle, hnext, hrun⟩ := bind_eq_ok_iff.mp hrun
    rw [next_run] at hnext
    cases hnext
    obtain ⟨_, middle, hexpect, hrun⟩ := bind_eq_ok_iff.mp hrun
    rw [expect_run] at hexpect
    split at hexpect
    · next hequals =>
      cases hexpect
      obtain ⟨option, last, hparsed, hinsert⟩ := bind_eq_ok_iff.mp hrun
      obtain ⟨words, hwords⟩ := (hvalue kind).moves.passes hparsed
      cases hadded : gathered.options.insert option with
      | ok options =>
        rw [hadded] at hinsert
        cases hinsert
        exact ⟨⟨first.current, kind, words, option⟩, rfl, hallowed, hequals, hwords, hparsed⟩
      | error _ =>
        rw [hadded] at hinsert
        cases hinsert
    · cases hexpect

/-- What the loop has gone through is a list of clauses. -/
theorem exists_clauses_of_run {next : Gathered Expansion}
    (hrun : separatedFrom (parseOption value context) .semicolon gathered first = .ok next last) :
    ∃ clauses, Clauses value context clauses first last := by
  induction hlength : first.ahead.length using Nat.strongRecOn generalizing gathered first with
  | ind length ih =>
    subst hlength
    rw [separatedFrom_run (moves_parseOption hvalue) (by decide)] at hrun
    cases hround : parseOption value context gathered first with
    | error fault rest =>
      rw [hround] at hrun
      cases hrun
    | ok found middle =>
      rw [hround] at hrun
      dsimp only at hrun
      obtain ⟨clause, hclause⟩ := exists_stands_of_parseOption hvalue hround
      split at hrun
      · next hsemicolon =>
        have hlt := consumes_parseOption hvalue context gathered hround
        have hbehind := Nat.lt_of_le_of_lt middle.ahead_advance_le hlt
        obtain ⟨clauses, hclauses⟩ := ih _ hbehind hrun rfl
        exact ⟨clause :: clauses, .more hclause hsemicolon hclauses⟩
      · cases hrun
        exact ⟨[clause], .last hclause⟩

/-! ## Options in parentheses -/

section Parentheses

variable (hopen : cursor.current.isA .openParen = true)

include hopen

omit hvalue in
theorem parse_run_of_open :
    parse value context cursor =
      (do
        let gathered ← separatedFrom (parseOption value context) .semicolon {}
        let _ ← expect .closeParen
        return gathered.options) cursor.advance := by
  rw [parse, bind_run, accept_run, if_pos hopen]
  rfl

variable (hoptions : ∀ kind, Yields (fun _ => True) (value kind) fun option => option.kind = kind)

include hoptions

section Given

variable (hclauses : Clauses value context clauses cursor.advance close)

include hclauses

/-- Clauses of different kinds make the set of their options. -/
theorem parse_run_of_nodup (hclose : close.current.isA .closeParen = true)
    (hkinds : (clauses.map Clause.kind).Nodup) :
    parse value context cursor = .ok (ofList (clauses.map Clause.option)) close.advance := by
  obtain ⟨gathered, hrun, htells⟩ :=
    run_of_nodup hvalue hoptions hclauses hclose Gathered.tellsOf_nil hkinds
  have hset : gathered.options = ofList (clauses.map Clause.option) := by
    apply ext_get?
    intro kind
    rw [htells.get?, get?_ofList, hclauses.find?_map_option hoptions, List.nil_append]
  rw [parse_run_of_open hopen, bind_run, hrun]
  dsimp only
  rw [bind_run, expect_run, if_pos hclose]
  dsimp only
  rw [hset]
  rfl

theorem exists_parse_error_of_not_nodup (hkinds : ¬ (clauses.map Clause.kind).Nodup) :
    ∃ earlier later fault rest, Clause.FirstRepetition clauses earlier later ∧
      Clause.ReportedBy earlier later fault ∧ parse value context cursor = .error fault rest := by
  obtain ⟨earlier, later, fault, rest, hfirst, hreported, hrun⟩ :=
    exists_fault_of_not_nodup hvalue hoptions hclauses Gathered.tellsOf_nil List.nodup_nil hkinds
  refine ⟨earlier, later, fault, rest, hfirst, hreported, ?_⟩
  rw [parse_run_of_open hopen, bind_run, hrun]

end Given

/-- Options in parentheses are clauses of different kinds. -/
theorem exists_clauses_of_parse {options : OptionSet Expansion} {rest : Cursor}
    (hrun : parse value context cursor = .ok options rest) :
    ∃ clauses close, Clauses value context clauses cursor.advance close ∧
      close.current.isA .closeParen = true ∧ (clauses.map Clause.kind).Nodup ∧
      options = ofList (clauses.map Clause.option) ∧ rest = close.advance := by
  have hbehind := hrun
  rw [parse_run_of_open hopen] at hbehind
  obtain ⟨gathered, close, hlist, hend⟩ := bind_eq_ok_iff.mp hbehind
  obtain ⟨_, _, hexpect, -⟩ := bind_eq_ok_iff.mp hend
  rw [expect_run] at hexpect
  split at hexpect
  · next hclose =>
    obtain ⟨clauses, hclauses⟩ := exists_clauses_of_run hvalue hlist
    by_cases hkinds : (clauses.map Clause.kind).Nodup
    · rw [parse_run_of_nodup hvalue hopen hoptions hclauses hclose hkinds] at hrun
      cases hrun
      exact ⟨clauses, close, hclauses, hclose, hkinds, rfl, rfl⟩
    · obtain ⟨_, _, _, _, -, -, herror⟩ :=
        exists_parse_error_of_not_nodup hvalue hopen hoptions hclauses hkinds
      rw [herror] at hrun
      cases hrun
  · cases hexpect

end Parentheses

end Loop

end OptionSet

/-- Clauses of different kinds are parsed as a set that has exactly the option of each clause.  Otherwise
the first clause that repeats a kind is reported, together with the clause that the kind was given in.  This
holds at every level of an expansion; `Expand.parseOptions` is the case of the first one. -/
theorem OptionSet.parse_clauses (scope : Scope) (levels : Nat) (owner : StructuredType)
    (context : OptionContext) {clauses : List (Clause Expand)} {cursor close : Cursor}
    (hopen : cursor.current.isA .openParen = true)
    (hclauses : Clauses (SystemOption.parseValue scope (Expand.parseWithin scope levels) owner) context
      clauses cursor.advance close)
    (hclose : close.current.isA .closeParen = true) :
    ((clauses.map Clause.kind).Nodup →
      ∃ options,
        OptionSet.parse (SystemOption.parseValue scope (Expand.parseWithin scope levels) owner) context
          cursor = .ok options close.advance ∧
        options.size = clauses.length ∧
        ∀ clause ∈ clauses, options.get? clause.kind = some clause.option) ∧
    (¬ (clauses.map Clause.kind).Nodup →
      ∃ earlier later fault rest,
        OptionSet.parse (SystemOption.parseValue scope (Expand.parseWithin scope levels) owner) context
          cursor = .error fault rest ∧
        Clause.FirstRepetition clauses earlier later ∧ Clause.ReportedBy earlier later fault) := by
  have hvalue := SystemOption.mirrors_parseValue scope (Expand.mirrors_parseWithin scope levels) owner
  have hoptions := SystemOption.yields_kind scope (Expand.parseWithin scope levels) owner
  constructor
  · intro hkinds
    have hsame := hclauses.map_kind_option hoptions
    have hdistinct : ((clauses.map Clause.option).map SystemOption.kind).Nodup := hsame ▸ hkinds
    refine ⟨_, OptionSet.parse_run_of_nodup hvalue hopen hoptions hclauses hclose hkinds, ?_, ?_⟩
    · rw [OptionSet.size_ofList hdistinct, List.length_map]
    · intro clause hmem
      rw [OptionSet.get?_ofList_eq_some_iff hdistinct]
      rw [List.map_map] at hsame
      exact ⟨List.mem_map_of_mem hmem, List.map_inj_left.mp hsame clause hmem⟩
  · intro hkinds
    obtain ⟨earlier, later, fault, rest, hfirst, hreported, hrun⟩ :=
      OptionSet.exists_parse_error_of_not_nodup hvalue hopen hoptions hclauses hkinds
    exact ⟨earlier, later, fault, rest, hrun, hfirst, hreported⟩

/-! ## Clauses of the small schema -/

namespace Clause

/-- The clauses of `($top=1;$expand=Orders($skip=1;$top=2))`. -/
def shopPage : List (Clause Expand) :=
  [{ keyword := ⟨.option .top, "$top", ⟨1, 5⟩⟩, kind := .top, value := [⟨.integer, "1"⟩]
     option := .top 1 },
   { keyword := ⟨.option .expand, "$expand", ⟨8, 15⟩⟩, kind := .expand
     value := [.identifier "Orders", .openParen, ⟨.option .skip, "$skip"⟩, .equals, ⟨.integer, "1"⟩,
       .semicolon, ⟨.option .top, "$top"⟩, .equals, ⟨.integer, "2"⟩, .closeParen]
     option := .expand [.path none [.navigation ⟨"Orders", ⟨"Shop", "Order"⟩, true⟩ none none] false
       { skip := some 1, top := some 2 }] }]

def shopTwice : List (Clause Expand) :=
  [{ keyword := ⟨.option .top, "$TOP", ⟨1, 5⟩⟩, kind := .top, value := [⟨.integer, "1"⟩]
     option := .top 1 },
   { keyword := ⟨.option .skip, "$skip", ⟨8, 13⟩⟩, kind := .skip, value := [⟨.integer, "2"⟩]
     option := .skip 2 },
   { keyword := ⟨.option .top, "$top", ⟨16, 20⟩⟩, kind := .top, value := [⟨.integer, "3"⟩]
     option := .top 3 }]

theorem exists_clauses_shopPage :
    ∃ close, Clauses (SystemOption.parseValue { schema := .shop }
        (Expand.parseWithin { schema := .shop } 1) .shopCustomer) .plain shopPage
        (Cursor.ofTokens (tokens "($top=1;$expand=Orders($skip=1;$top=2))")).advance close ∧
      close.current.isA .closeParen = true := by
  refine ⟨_, .more ⟨rfl, rfl, rfl, .cons rfl (by decide) (.nil _), rfl⟩ rfl
    (.last ⟨rfl, rfl, rfl, ?_, rfl⟩), rfl⟩
  iterate 10 refine .cons rfl (by decide) ?_
  exact .nil _

end Clause

theorem OptionSet.parse_clauses_shop :
    (∃ options rest,
      OptionSet.parse (SystemOption.parseValue { schema := .shop }
          (Expand.parseWithin { schema := .shop } 1) .shopCustomer) .plain
          (.ofTokens (tokens "($top=1;$expand=Orders($skip=1;$top=2))")) = .ok options rest ∧
        options.size = 2 ∧
        ∀ clause ∈ Clause.shopPage, options.get? clause.kind = some clause.option) ∧
    ∃ earlier later fault rest,
      OptionSet.parse (SystemOption.parseValue { schema := .shop }
          (Expand.parseWithin { schema := .shop } 1) .shopCustomer) .plain
          (.ofTokens (tokens "($TOP=1;$skip=2;$top=3)")) = .error fault rest ∧
        Clause.FirstRepetition Clause.shopTwice earlier later ∧
        Clause.ReportedBy earlier later fault := by
  constructor
  · obtain ⟨close, hclauses, hclose⟩ := Clause.exists_clauses_shopPage
    obtain ⟨options, hrun, hsize, hget⟩ :=
      (OptionSet.parse_clauses { schema := .shop } 1 .shopCustomer .plain rfl hclauses hclose).1
        (by decide)
    exact ⟨options, _, hrun, hsize, hget⟩
  · have hclauses : Clauses (SystemOption.parseValue { schema := .shop }
        (Expand.parseWithin { schema := .shop } 1) .shopCustomer) .plain Clause.shopTwice
        (Cursor.ofTokens (tokens "($TOP=1;$skip=2;$top=3)")).advance
        (Nat.repeat Cursor.advance 12 (.ofTokens (tokens "($TOP=1;$skip=2;$top=3)"))) :=
      .more ⟨rfl, rfl, rfl, .cons rfl (by decide) (.nil _), rfl⟩ rfl
        (.more ⟨rfl, rfl, rfl, .cons rfl (by decide) (.nil _), rfl⟩ rfl
          (.last ⟨rfl, rfl, rfl, .cons rfl (by decide) (.nil _), rfl⟩))
    exact (OptionSet.parse_clauses { schema := .shop } 1 .shopCustomer .plain rfl hclauses rfl).2
      (by decide)

end ODataOptions
