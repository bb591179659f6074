import Mathlib.Algebra.Ring.Nat
import ODataOptions.Proofs.SystemOption.Clauses

/-!
# The order of clauses

Clauses in parentheses may be given in any order.  The value of a clause is parsed alike before a
semicolon and before the closing parenthesis, and at the same depth behind any other clause, so each
clause stands for itself wherever it is put.
-/

namespace ODataOptions

open ODataOptions.Parser

variable {Expansion : Type} {value : OptionKind → Parser (SystemOption Expansion)}
  {context : OptionContext} {clause : Clause Expansion} {clauses : List (Clause Expansion)}
  {depth : Nat} {first last close : Cursor}

/-! ## Clauses wherever they stand -/

/-- At so many open levels, the clause may stand wherever its words do. -/
structure Clause.Portable (value : OptionKind → Parser (SystemOption Expansion))
    (context : OptionContext) (depth : Nat) (clause : Clause Expansion) : Prop where
  kind : OptionSet.allowedKind? context clause.keyword = some clause.kind
  reads : Reads (value clause.kind) depth clause.value Word.EndsValue True (· = clause.option)

/-- A clause that stands somewhere may stand wherever its words do. -/
theorem Clause.Stands.portable (hclause : clause.Stands value context first last)
    (hvalue : ∀ kind, Mirrors .value id (value kind) (value kind))
    (hends : last.current.word.EndsValue) : clause.Portable value context first.depth := by
  refine ⟨hclause.kind, ?_⟩
  have hreads := (hvalue clause.kind).reads hclause.parsed hclause.words hends
  rwa [Cursor.depth_advance, Cursor.depth_advance] at hreads

/-- Only the place of the keyword is another one. -/
theorem Clause.Portable.stands (hclause : clause.Portable value context first.depth)
    (hpasses : first.Passes clause.words last) (hends : last.current.word.EndsValue) :
    Clause.Stands value context { clause with keyword := first.current } first last := by
  have hwords : first.advance.advance.Passes clause.value last := hpasses.advance.advance
  have hdepth : first.advance.advance.depth = first.depth := by
    rw [Cursor.depth_advance, Cursor.depth_advance]
  obtain ⟨_, hparsed, rfl⟩ := (hclause.reads hdepth hwords hends).1 trivial
  refine ⟨rfl, ?_, hpasses.advance.isA_current _, hwords, hparsed⟩
  rw [OptionSet.allowedKind?_congr hpasses.current_word]
  exact hclause.kind

/-- Where the words of clauses are passed, the clauses stand. -/
theorem exists_clauses_of_passes (hne : clauses ≠ [])
    (hclauses : ∀ clause ∈ clauses, clause.Portable value context first.depth)
    (hpasses : first.Passes (Word.joined .semicolon (clauses.map Clause.words)) close)
    (hclose : close.current.isA .closeParen = true) :
    ∃ placed, Clauses value context placed first close ∧
      placed.map Clause.content = clauses.map Clause.content := by
  induction clauses generalizing first with
  | nil => exact absurd rfl hne
  | cons clause clauses ih =>
    obtain ⟨hclause, hothers⟩ := List.forall_mem_cons.mp hclauses
    by_cases hsingle : clauses = []
    · subst hsingle
      have hstands := hclause.stands hpasses (Token.endsValue_of_isA (by decide) hclose)
      exact ⟨[_], .last hstands, rfl⟩
    · rw [List.map_cons, Word.joined_cons _ _ (by simpa using hsingle)] at hpasses
      obtain ⟨start, hbefore, hbehind⟩ := hpasses.append
      obtain ⟨middle, hwords, hsemicolon⟩ := hbefore.append
      have hmore : middle.current.isA .semicolon = true := hsemicolon.isA_current _
      have hstands := hclause.stands hwords (Token.endsValue_of_isA (by decide) hmore)
      rw [← hsemicolon.advance.eq_of_nil] at hbehind
      have hdepth : middle.advance.depth = first.depth := by
        rw [Cursor.depth_advance, hwords.depth_eq]
      obtain ⟨placed, hplaced, hcontent⟩ := ih hsingle (hdepth ▸ hothers) hbehind
      exact ⟨_ :: placed, .more hstands hmore hplaced, congrArg (clause.content :: ·) hcontent⟩

/-! ## The number of tokens -/

theorem Clause.Stands.position_eq (hclause : clause.Stands value context first last) :
    last.position = first.position + (clause.value.length + 2) := by
  have hkeyword : first.current.kind ≠ .endOfInput := by
    intro hend
    have hkind := hclause.kind
    rw [← hclause.keyword, OptionSet.allowedKind?, hend] at hkind
    cases hkind
  have hequals := Token.kind_ne_endOfInput_of_isA (by decide) hclause.equals
  rw [hclause.words.position_eq, Cursor.position_advance hequals, Cursor.position_advance hkeyword]
  omega

/-- Besides its value a clause takes two tokens, and one more stands behind each of them. -/
theorem Clauses.position_eq (hclauses : Clauses value context clauses first close) :
    close.position + 1 =
      first.position + (clauses.map fun clause => clause.value.length + 3).sum := by
  induction hclauses with
  | last hclause =>
    rw [List.map_singleton, List.sum_singleton, hclause.position_eq]
    omega
  | more hclause hsemicolon _ ih =>
    have hkind := Token.kind_ne_endOfInput_of_isA (by decide) hsemicolon
    rw [ih, List.map_cons, List.sum_cons, Cursor.position_advance hkind, hclause.position_eq]
    omega

theorem Clauses.position_enclosed {cursor : Cursor} (hopen : cursor.current.isA .openParen = true)
    (hclauses : Clauses value context clauses cursor.advance close)
    (hclose : close.current.isA .closeParen = true) :
    close.advance.position =
      cursor.position + 1 + (clauses.map fun clause => clause.value.length + 3).sum := by
  have hopened := Token.kind_ne_endOfInput_of_isA (by decide) hopen
  have hclosed := Token.kind_ne_endOfInput_of_isA (by decide) hclose
  rw [Cursor.position_advance hclosed, hclauses.position_eq, Cursor.position_advance hopened]

/-! ## Permutations -/

def Clause.enclosed (clauses : List (Clause Expansion)) : List Word :=
  .openParen :: Word.joined .semicolon (clauses.map Clause.words) ++ [.closeParen]

/-- The clauses of different kinds are parsed as the set of their options wherever their words stand, in
whatever order. -/
theorem OptionSet.parse_run_of_perm {clauses' : List (Clause Expansion)}
    {cursor close cursor' rest' : Cursor}
    (hvalue : ∀ kind, Mirrors .value id (value kind) (value kind))
    (hoptions : ∀ kind, Yields (fun _ => True) (value kind) fun option => option.kind = kind)
    (hclauses : Clauses value context clauses cursor.advance close)
    (hclose : close.current.isA .closeParen = true) (hkinds : (clauses.map Clause.kind).Nodup)
    (hpermuted : clauses.Perm clauses') (hdepth : cursor'.depth = cursor.depth)
    (hpasses : cursor'.Passes (Clause.enclosed clauses') rest') :
    OptionSet.parse value context cursor' = .ok (ofList (clauses'.map Clause.option)) rest' ∧
      rest'.position = cursor'.position + 1 + (clauses'.map fun clause => clause.value.length + 3).sum := by
  have hopen' : cursor'.current.isA .openParen = true := hpasses.isA_current _
  have hbehind : cursor'.advance.Passes
      (Word.joined .semicolon (clauses'.map Clause.words) ++ [.closeParen]) rest' := hpasses.advance
  obtain ⟨close', hlist, hlast⟩ := hbehind.append
  have hclose' : close'.current.isA .closeParen = true := hlast.isA_current _
  have hportable : ∀ clause ∈ clauses', clause.Portable value context cursor'.advance.depth := by
    intro clause hmem
    obtain ⟨start, last, hstands, hstart, hends⟩ :=
      hclauses.exists_stands hclose clause (hpermuted.mem_iff.mpr hmem)
    rw [Cursor.depth_advance, hdepth, ← Cursor.depth_advance, ← hstart]
    exact hstands.portable hvalue hends
  have hne : clauses' ≠ [] := by
    rintro rfl
    rw [hpermuted.eq_nil] at hclauses
    cases hclauses
  obtain ⟨placed, hplaced, hcontent⟩ := exists_clauses_of_passes hne hportable hlist hclose'
  have hkind := congrArg (List.map Prod.fst) hcontent
  have hoption := congrArg (List.map (·.2.2)) hcontent
  have hlength := congrArg (List.map fun content => content.2.1.length + 3) hcontent
  simp only [List.map_map] at hkind hoption hlength
  have hkinds' : (placed.map Clause.kind).Nodup := by
    rw [show placed.map Clause.kind = clauses'.map Clause.kind from hkind]
    exact ((hpermuted.map Clause.kind).nodup_iff).mp hkinds
  rw [← hlast.advance.eq_of_nil]
  constructor
  · rw [parse_run_of_nodup hvalue hopen' hoptions hplaced hclose' hkinds',
      show placed.map Clause.option = clauses'.map Clause.option from hoption]
  · rw [hplaced.position_enclosed hopen' hclose']
    exact congrArg (_ + List.sum ·) hlength

/-- Where options in parentheses are parsed, the same clauses in another order are parsed as the same set,
and take as many tokens. -/
theorem OptionSet.parse_permuted (scope : Scope) (levels : Nat) (owner : StructuredType)
    (context : OptionContext) {clauses clauses' : List (Clause Expand)} {options : OptionSet Expand}
    {cursor close rest cursor' rest' : Cursor} (hopen : cursor.current.isA .openParen = true)
    (hclauses : Clauses (SystemOption.parseValue scope (Expand.parseWithin scope levels) owner) context
      clauses cursor.advance close)
    (hclose : close.current.isA .closeParen = true)
    (hrun : OptionSet.parse (SystemOption.parseValue scope (Expand.parseWithin scope levels) owner)
      context cursor = .ok options rest)
    (hpermuted : clauses.Perm clauses') (hdepth : cursor'.depth = cursor.depth)
    (hpasses : cursor'.Passes (Clause.enclosed clauses') rest') :
    OptionSet.parse (SystemOption.parseValue scope (Expand.parseWithin scope levels) owner) context
        cursor' = .ok options rest' ∧
      rest'.position - cursor'.position = rest.position - cursor.position := by
  have hvalue := SystemOption.mirrors_parseValue scope (Expand.mirrors_parseWithin scope levels) owner
  have hoptions := SystemOption.yields_kind scope (Expand.parseWithin scope levels) owner
  have hkinds : (clauses.map Clause.kind).Nodup := by
    apply Classical.byContradiction
    intro hkinds
    obtain ⟨_, _, _, _, -, -, herror⟩ :=
      OptionSet.exists_parse_error_of_not_nodup hvalue hopen hoptions hclauses hkinds
    rw [hrun] at herror
    cases herror
  rw [OptionSet.parse_run_of_nodup hvalue hopen hoptions hclauses hclose hkinds] at hrun
  cases hrun
  obtain ⟨hrun', hposition'⟩ :=
    OptionSet.parse_run_of_perm hvalue hoptions hclauses hclose hkinds hpermuted hdepth hpasses
  have hdistinct : ((clauses.map Clause.option).map SystemOption.kind).Nodup := by
    rw [hclauses.map_kind_option hoptions]
    exact hkinds
  have hsum := (hpermuted.map fun clause : Clause Expand => clause.value.length + 3).sum_nat
  constructor
  · rw [hrun', OptionSet.ofList_perm hdistinct (hpermuted.map Clause.option)]
  · rw [hposition', hclauses.position_enclosed hopen hclose, hsum]
    omega

theorem OptionSet.parse_permuted_shop :
    ∃ options rest rest',
      OptionSet.parse (SystemOption.parseValue { schema := .shop }
          (Expand.parseWithin { schema := .shop } 1) .shopCustomer) .plain
          (.ofTokens (tokens "($top=1;$expand=Orders($skip=1;$top=2))")) = .ok options rest ∧
      OptionSet.parse (SystemOption.parseValue { schema := .shop }
          (Expand.parseWithin { schema := .shop } 1) .shopCustomer) .plain
          (.ofTokens (tokens "($expand=Orders($skip=1;$top=2);$top=1)")) = .ok options rest' ∧
      rest'.position = rest.position := by
  obtain ⟨close, hclauses, hclose⟩ := Clause.exists_clauses_shopPage
  have hvalue := SystemOption.mirrors_parseValue { schema := .shop }
    (Expand.mirrors_parseWithin { schema := .shop } 1) .shopCustomer
  have hoptions := SystemOption.yields_kind { schema := .shop }
    (Expand.parseWithin { schema := .shop } 1) .shopCustomer
  have hopen : (Cursor.ofTokens (tokens "($top=1;$expand=Orders($skip=1;$top=2))")).current.isA
      .openParen = true := rfl
  have hrun := OptionSet.parse_run_of_nodup hvalue hopen hoptions hclauses hclose (by decide)
  have hpasses : (Cursor.ofTokens (tokens "($expand=Orders($skip=1;$top=2);$top=1)")).Passes
      (Clause.enclosed Clause.shopPage.reverse)
      (Nat.repeat Cursor.advance 18 (.ofTokens (tokens "($expand=Orders($skip=1;$top=2);$top=1)"))) := by
    iterate 18 refine .cons rfl (by decide) ?_
    exact .nil _
  have hdepth : ∀ source, (Cursor.ofTokens (tokens source)).depth = 0 := fun _ => rfl
  obtain ⟨hrun', hposition⟩ := OptionSet.parse_permuted { schema := .shop } 1 .shopCustomer .plain
    hopen hclauses hclose hrun (List.reverse_perm _).symm
    ((hdepth _).trans (hdepth _).symm) hpasses
  exact ⟨_, _, _, hrun, hrun', hposition⟩

end ODataOptions
