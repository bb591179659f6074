import ODataOptions.Expression.Printer
import ODataOptions.Proofs.Expression.Spelling
import ODataOptions.Proofs.Text.Numerals
import ODataOptions.Proofs.Token.Writes

/-!
# Words of expressions

The words that the canonical text of an expression is written in.
-/

namespace ODataOptions

open Pattern TokenPattern

namespace Literal

def kind : Literal → TokenKind
  | .null | .boolean _ => .identifier
  | .integer _ => .integer
  | .decimal _ => .decimal
  | .string _ => .string
  | .date _ => .date
  | .dateTimeOffset _ => .dateTimeOffset
  | .guid _ => .guid

def word (value : Literal) : Word := ⟨value.kind, value.print⟩

/-- A constant is printed as the token that is read as it. -/
theorem writes {value : Literal} (hspelled : value.Spelled Word.IsToken) :
    Writes value.print [value.word] := by
  cases value with
  | null => exact writes_identifier ⟨_, rfl⟩
  | boolean truth =>
    cases truth with
    | true => exact writes_identifier ⟨_, rfl⟩
    | false => exact writes_identifier ⟨_, rfl⟩
  | integer number => exact (isToken_toString_int number).writes (by decide) (by decide)
  | decimal text =>
    have htoken : Word.IsToken ⟨.decimal, text⟩ := hspelled
    exact htoken.writes (by decide) (by decide)
  | string text => exact writes_string text
  | date text =>
    have htoken : Word.IsToken ⟨.date, text⟩ := hspelled
    exact htoken.writes (by decide) (by decide)
  | dateTimeOffset text =>
    have htoken : Word.IsToken ⟨.dateTimeOffset, text⟩ := hspelled
    exact htoken.writes (by decide) (by decide)
  | guid text =>
    have htoken : Word.IsToken ⟨.guid, text⟩ := hspelled
    exact htoken.writes (by decide) (by decide)

end Literal

/-! ## Parameters -/

/-- A parameter alias is written with one sign before its name. -/
theorem Word.IsToken.parameterAlias_eq {text : String}
    (htoken : Word.IsToken ⟨.parameterAlias, text⟩) : text = "@" ++ parameterName text := by
  obtain ⟨c, chars, htext, -, hbeginning⟩ := htoken.beginning
  obtain ⟨found, hlongest, rfl | ⟨-, hkind, -⟩⟩ := longestOf_of_beginning hbeginning
  · obtain ⟨⟨pattern, hmem, hreach⟩, -⟩ := longestOf_eq_some hlongest
    have hpattern : pattern = TokenPattern.parameterAlias := by
      simpa [all, OptionKind.all] using hmem
    obtain ⟨-, hmatches, -⟩ := longest_eq_some_iff.mp hreach
    rw [List.take_length, hpattern] at hmatches
    obtain ⟨sign, rest, hsplit, hsign, hname⟩ := matches_seq_iff.mp hmatches
    obtain ⟨_, rfl, hat⟩ := matches_oneOf_iff.mp hsign
    obtain ⟨head, tail, rfl, hhead, -⟩ := matches_seq_iff.mp hname
    obtain ⟨letter, rfl, hletter⟩ := matches_oneOf_iff.mp hhead
    obtain rfl := of_decide_eq_true hat
    have hne : letter ≠ '@' := by
      rintro rfl
      cases hletter
    apply String.toList_injective
    rw [String.toList_append, parameterName, String.toList_ofList, htext, hsplit]
    simp [hne]
  · cases hkind

/-! ## Expressions -/

theorem BinaryOperator.isToken_keyword (operator : BinaryOperator) :
    (Word.identifier operator.keyword).IsToken := by
  cases operator <;> exact ⟨_, rfl⟩

theorem Method.isToken_name (method : Method) : (Word.identifier method.name).IsToken := by
  cases method <;> exact ⟨_, rfl⟩

def Member.pathWords (path : List Member) : List Word :=
  Word.joined .slash (path.map fun member => [.identifier member.name])

/-- The words of a path begin with the name of the first member, and go on with a slash if at all.
-/
theorem Member.exists_pathWords (first : Member) (path : List Member) :
    ∃ more, pathWords (first :: path) = .identifier first.name :: more ∧
      (more = [] ∨ more.head? = some .slash) := by
  cases path with
  | nil => exact ⟨[], rfl, .inl rfl⟩
  | cons => exact ⟨_, rfl, .inr rfl⟩

theorem Member.writes_path {path : List Member}
    (hspelled : ∀ member ∈ path, Word.IsToken ⟨.identifier, member.name⟩) :
    Writes (printPath path) (pathWords path) :=
  writes_intercalate .slash delimits_slash opens_slash <| forall₂_writes fun member hmem =>
    writes_identifier (hspelled member hmem)

namespace Expression

mutual

def words : Expression → List Word
  | .literal value => [value.word]
  | .member path => Member.pathWords path
  | .parameter name => [⟨.parameterAlias, "@" ++ name⟩]
  | .not operand => .openParen :: .identifier "not" :: words operand ++ [.closeParen]
  | .binary operator left right =>
    .openParen :: words left ++ .identifier operator.keyword :: words right ++ [.closeParen]
  | .call method arguments =>
    .identifier method.name :: .openParen :: Word.joined .comma (allWords arguments) ++ [.closeParen]

def allWords : List Expression → List (List Word)
  | [] => []
  | expression :: expressions => words expression :: allWords expressions

end

theorem allWords_eq_map (expressions : List Expression) :
    allWords expressions = expressions.map words := by
  induction expressions with
  | nil => rfl
  | cons expression expressions ih => simp [allWords, ih]

mutual

/-- The canonical text of a spelled expression is written in its words. -/
theorem writes {expression : Expression} (hspelled : expression.Spelled Word.IsToken) :
    Writes expression.print expression.words := by
  match expression with
  | .literal value => exact Literal.writes hspelled
  | .member path => exact Member.writes_path hspelled.1
  | .parameter name =>
    obtain ⟨text, htoken, rfl⟩ := hspelled
    rw [htoken.parameterAlias_eq] at htoken
    exact htoken.writes (by decide) (by decide)
  | .not operand =>
    have hnot : (Word.identifier "not").IsToken := ⟨_, rfl⟩
    have hopen := (opens_openParen.append_writes (writes_identifier hnot)).append_opens
      delimits_space opens_space
    have htext : "(" ++ "not" ++ " " = "(not " := by simp
    rw [htext] at hopen
    have hoperand : Writes operand.print operand.words := writes hspelled
    simpa [words, print] using
      (hopen.append_writes hoperand).append delimits_closeParen opens_closeParen.writes
  | .binary operator left right =>
    have hleft := (opens_openParen.append_writes (writes hspelled.1)).append_opens delimits_space
      opens_space
    have hkeyword := (hleft.append_writes (writes_identifier operator.isToken_keyword)).append_opens
      delimits_space opens_space
    have hright := (hkeyword.append_writes (writes hspelled.2)).append delimits_closeParen
      opens_closeParen.writes
    simpa [words, print] using hright
  | .call method arguments =>
    have hname := (writes_identifier method.isToken_name).append_opens delimits_openParen
      opens_openParen
    have harguments := writes_intercalate .comma delimits_comma opens_comma
      (forall₂_writes (writes_all hspelled))
    rw [← allWords_eq_map, ← printAll_eq_map] at harguments
    have hcall := (hname.append_writes harguments).append delimits_closeParen opens_closeParen.writes
    simpa [words, print, Word.comma] using hcall

theorem writes_all {expressions : List Expression} (hspelled : AllSpelled Word.IsToken expressions) :
    ∀ expression ∈ expressions, Writes expression.print expression.words := by
  match expressions with
  | [] => simp
  | expression :: expressions =>
    exact List.forall_mem_cons.mpr ⟨writes hspelled.1, writes_all hspelled.2⟩

end

end Expression

end ODataOptions
