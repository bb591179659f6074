import ODataOptions.Proofs.Expression.Completeness
import ODataOptions.Proofs.SystemOption.Validity

/-!
# Sort keys are read back

A descending key ends with the word `desc`, and an ascending one is not marked.
-/

namespace ODataOptions

open ODataOptions.Parser

namespace OrderByItem

def words (item : OrderByItem) : List Word :=
  item.expression.words ++ if item.descending then [.identifier "desc"] else []

theorem writes {item : OrderByItem} (hspelled : item.expression.Spelled Word.IsToken) :
    Writes item.print item.words := by
  have hwrites := Expression.writes hspelled
  obtain ⟨expression, descending⟩ := item
  cases descending with
  | false => simpa [print, words] using hwrites
  | true =>
    have hword : (Word.identifier "desc").IsToken := ⟨_, rfl⟩
    have htext : expression.print ++ " desc" = expression.print ++ " " ++ "desc" := by
      rw [String.append_assoc]
      simp
    have hdesc := (hwrites.append_opens delimits_space opens_space).append_writes
      (writes_identifier hword)
    rw [← htext] at hdesc
    simpa [print, words] using hdesc

variable {scope : Scope} {owner : StructuredType}

theorem reads_parse {item : OrderByItem} (hkey : item.expression.IsKey scope owner Word.IsToken) :
    Reads (parse scope owner) 0 item.words Word.EndsItem
      (item.expression.Fits scope.limits.expressionDepth) (· = item) := by
  obtain ⟨⟨type, htype, hplain⟩, hspelled, hlooks⟩ := hkey
  have hends : ∀ word : Word, word = .identifier "desc" ∨ word.EndsItem →
      word.Ends BinaryOperator.all := by
    rintro word (rfl | hfollows)
    · exact ⟨by decide, by decide, by decide⟩
    · exact hfollows.ends
  refine (Expression.reads_parse hspelled htype hlooks hends).bind_rest ?_ fun key hread => ?_
  · split
    · exact .inl rfl
    · exact fun word hword => .inr hword
  · have hprimitive : key.type ≠ .structured := by
      rw [htype.unique hread.2]
      exact hplain
    simp only [hprimitive, if_false]
    obtain ⟨expression, descending⟩ := item
    cases descending with
    | true =>
      apply (reads_oneOfWords _ (.head _) (by decide)).map
      rintro _ rfl
      rw [hread.1]
      rfl
    | false =>
      refine (declines_oneOfWords _ fun word hword direction _ => ?_).map ?_
      · have hkind := Word.EndsItem.kind_ne hword .identifier (by decide)
        simp [Word.isWord, hkind]
      · rintro _ rfl
        rw [hread.1]
        rfl

end OrderByItem

namespace OrderBy

variable {scope : Scope} {owner : StructuredType} {keys : OrderBy}

def words (keys : OrderBy) : List Word := Word.joined .comma (keys.map OrderByItem.words)

theorem writes (hkeys : OrderBy.Valid scope owner Word.IsToken keys) :
    Writes (print keys) (words keys) :=
  writes_intercalate .comma delimits_comma opens_comma <| forall₂_writes fun key hmem =>
    OrderByItem.writes (hkeys.2 key hmem).2.1

theorem reads_parse (hkeys : OrderBy.Valid scope owner Word.IsToken keys) :
    Reads (parse scope owner) 0 (words keys) Word.EndsValue
      (∀ key ∈ keys, key.expression.Fits scope.limits.expressionDepth) (· = keys) := by
  refine Reads.separated_self .comma rfl (fun word hword => ?_) hkeys.1 fun key hmem =>
    OrderByItem.reads_parse (hkeys.2 key hmem)
  exact Word.isA_eq_false rfl (hword.kind_ne _ (by decide))

end OrderBy

end ODataOptions
