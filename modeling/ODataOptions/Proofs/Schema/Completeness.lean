import ODataOptions.Proofs.Parser.Reads
import ODataOptions.Proofs.Schema.Casts

/-!
# Casts are read back
-/

namespace ODataOptions

open ODataOptions.Parser

namespace StructuredType

def word (type : StructuredType) : Word := ⟨.qualifiedName, type.print⟩

variable {schema : Schema} {owner cast : StructuredType} {depth : Nat} {words : List Word}
  {follow : Word → Prop}

theorem CastsTo.writes (hcast : owner.CastsTo schema Word.IsToken cast) :
    Writes cast.print [cast.word] :=
  hcast.word.writes (by decide) (by decide)

def narrowedWords (name : String) : Option StructuredType → List Word
  | some cast => [.identifier name, .slash, cast.word]
  | none => [.identifier name]

theorem CastsTo.writes_narrowed {name : String} (hname : (Word.identifier name).IsToken)
    (hcast : owner.CastsTo schema Word.IsToken cast) :
    Writes (name ++ "/" ++ cast.print) (narrowedWords name (some cast)) :=
  ((writes_identifier hname).append_opens delimits_slash opens_slash).append_writes hcast.writes

/-- The name of a derived type is read as a cast to it. -/
theorem CastsTo.reads (hcast : owner.CastsTo schema Word.IsToken cast) :
    Reads (owner.parseCast? schema) depth [cast.word] follow True (· = some cast) := by
  refine reads_takeIf (fun token hword => ?_) fun token hword => ?_
  · rw [← Token.isA_word, hword]
    rfl
  · have htext : token.text = cast.print := congrArg Word.text hword
    have hfound : (QualifiedName.parse? token.text).bind (schema.type? owner.kind) = some cast := by
      rw [htext, hcast.split]
      exact hcast.found
    simp only [hfound, hcast.compatible, if_true]
    exact reads_pure trivial rfl

theorem declines_parseCast? (hfollow : ∀ word, follow word → word.kind ≠ .qualifiedName) :
    Reads (owner.parseCast? schema) depth [] follow True (· = none) := by
  refine declines_takeIf (fun word hword token htoken => ?_) (reads_pure trivial rfl)
  rw [← Token.isA_word, htoken]
  exact Word.isA_eq_false rfl (hfollow word hword)

end StructuredType

end ODataOptions
