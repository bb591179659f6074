import Mathlib.Data.List.Forall2
import ODataOptions.Proofs.Token.Written

/-!
# Pieces of written texts

A text is put together from pieces.  A piece that ends with a word must be followed by a delimiter or
by nothing, and a piece that ends with a mark may be followed by anything.  So the pieces of a text
are read one by one, wherever they stand.
-/

namespace ODataOptions

open TokenPattern

namespace Word

def identifier (name : String) : Word := ⟨.identifier, name⟩

def star : Word := ⟨.star, "*"⟩

def slash : Word := ⟨.slash, "/"⟩

def openParen : Word := ⟨.openParen, "("⟩

def closeParen : Word := ⟨.closeParen, ")"⟩

def comma : Word := ⟨.comma, ","⟩

def semicolon : Word := ⟨.semicolon, ";"⟩

def equals : Word := ⟨.equals, "="⟩

/-- The words of several texts with a separator between them. -/
def joined (separator : Word) : List (List Word) → List Word
  | [] => []
  | [words] => words
  | words :: next :: rest => words ++ separator :: joined separator (next :: rest)

theorem joined_cons (separator : Word) (words : List Word) {texts : List (List Word)}
    (hne : texts ≠ []) :
    joined separator (words :: texts) = words ++ [separator] ++ joined separator texts := by
  cases texts with
  | nil => exact absurd rfl hne
  | cons next texts => simp [joined]

/-- The separators before a text stand behind those before it, and those behind it before the rest. -/
theorem joined_around (separator : Word) (before : List (List Word)) (words : List Word)
    (behind : List (List Word)) :
    joined separator (before ++ words :: behind) =
      before.flatMap (· ++ [separator]) ++ (words ++ behind.flatMap (separator :: ·)) := by
  induction before with
  | nil =>
    induction behind generalizing words with
    | nil => simp [joined]
    | cons next behind ih =>
      have hnext : joined separator (next :: behind) = next ++ behind.flatMap (separator :: ·) := ih next
      rw [List.nil_append, joined_cons separator words (List.cons_ne_nil _ _), hnext]
      simp
  | cons first before ih =>
    rw [List.cons_append, joined_cons separator first (by simp), ih, List.flatMap_cons,
      ← List.append_assoc (first ++ [separator])]

/-- What holds of the separator and of the words of each text holds of all words. -/
theorem forall_mem_joined {separator : Word} {texts : List (List Word)} {P : Word → Prop}
    (hseparator : P separator) (htexts : ∀ words ∈ texts, ∀ word ∈ words, P word) :
    ∀ word ∈ joined separator texts, P word := by
  induction texts with
  | nil => simp [joined]
  | cons words texts ih =>
    obtain ⟨hwords, hrest⟩ := List.forall_mem_cons.mp htexts
    cases texts with
    | nil => exact hwords
    | cons next texts =>
      exact List.forall_mem_append.mpr ⟨hwords, List.forall_mem_cons.mpr ⟨hseparator, ih hrest⟩⟩

end Word

/-- Before a delimiter or at the end, the text is read as these words. -/
def Writes (text : String) (words : List Word) : Prop :=
  ∀ ⦃rest restWords⦄, Stops rest → Written rest restWords →
    Written (text.toList ++ rest) (words ++ restWords)

/-- Whatever follows, the text is read as these words. -/
def Opens (text : String) (words : List Word) : Prop :=
  ∀ ⦃rest restWords⦄, Written rest restWords → Written (text.toList ++ rest) (words ++ restWords)

def Delimits (text : String) : Prop := ∃ c ∈ text.toList.head?, c ∈ delimiters

theorem Delimits.stops {text : String} (hdelimits : Delimits text) (rest : List Char) :
    Stops (text.toList ++ rest) := by
  obtain ⟨c, hhead, hmem⟩ := hdelimits
  obtain ⟨chars, htext⟩ := List.head?_eq_some_iff.mp hhead
  intro d hd
  rw [htext] at hd
  obtain rfl := Option.some.inj hd
  exact hmem

section

variable {first second text : String} {firstWords secondWords words : List Word}

theorem Writes.written (hwrites : Writes text words) : Written text.toList words := by
  simpa using hwrites (by simp [Stops]) .nil

theorem Opens.writes (hopens : Opens text words) : Writes text words :=
  fun _ _ _ hrest => hopens hrest

theorem Opens.append (hfirst : Opens first firstWords) (hsecond : Opens second secondWords) :
    Opens (first ++ second) (firstWords ++ secondWords) := by
  intro rest restWords hrest
  rw [String.toList_append, List.append_assoc, List.append_assoc]
  exact hfirst (hsecond hrest)

/-- A text that opens may be followed by any other one. -/
theorem Opens.append_writes (hfirst : Opens first firstWords)
    (hsecond : Writes second secondWords) :
    Writes (first ++ second) (firstWords ++ secondWords) := by
  intro rest restWords hstops hrest
  rw [String.toList_append, List.append_assoc, List.append_assoc]
  exact hfirst (hsecond hstops hrest)

theorem Writes.append_opens (hfirst : Writes first firstWords) (hdelimits : Delimits second)
    (hsecond : Opens second secondWords) :
    Opens (first ++ second) (firstWords ++ secondWords) := by
  intro rest restWords hrest
  rw [String.toList_append, List.append_assoc, List.append_assoc]
  exact hfirst (hdelimits.stops rest) (hsecond hrest)

/-- Texts are written one behind the other if the second one begins with a delimiter. -/
theorem Writes.append (hfirst : Writes first firstWords) (hdelimits : Delimits second)
    (hsecond : Writes second secondWords) :
    Writes (first ++ second) (firstWords ++ secondWords) := by
  intro rest restWords hstops hrest
  rw [String.toList_append, List.append_assoc, List.append_assoc]
  exact hfirst (hdelimits.stops rest) (hsecond hstops hrest)

end

/-! ## Single words -/

theorem writes_empty : Writes "" [] :=
  fun _ _ _ hrest => hrest

theorem opens_space : Opens " " [] :=
  fun _ _ hrest => .blank rfl hrest

theorem opens_mark (word : Word) (c : Char) (htext : word.text.toList = [c])
    (hmark : (c, word.kind) ∈ marks) : Opens word.text [word] := by
  intro rest restWords hrest
  have hblank : ∀ mark ∈ marks, isBlank mark.1 = false := by decide
  rw [htext]
  exact .token htext (hblank _ hmark) (beginning_mark hmark rest) hrest

theorem opens_star : Opens "*" [.star] := opens_mark .star '*' rfl (by decide)

theorem opens_slash : Opens "/" [.slash] := opens_mark .slash '/' rfl (by decide)

theorem opens_openParen : Opens "(" [.openParen] := opens_mark .openParen '(' rfl (by decide)

theorem opens_closeParen : Opens ")" [.closeParen] := opens_mark .closeParen ')' rfl (by decide)

theorem opens_comma : Opens "," [.comma] := opens_mark .comma ',' rfl (by decide)

theorem opens_semicolon : Opens ";" [.semicolon] := opens_mark .semicolon ';' rfl (by decide)

theorem opens_equals : Opens "=" [.equals] := opens_mark .equals '=' rfl (by decide)

theorem delimits_slash : Delimits "/" := ⟨'/', rfl, by decide⟩

theorem delimits_openParen : Delimits "(" := ⟨'(', rfl, by decide⟩

theorem delimits_closeParen : Delimits ")" := ⟨')', rfl, by decide⟩

theorem delimits_comma : Delimits "," := ⟨',', rfl, by decide⟩

theorem delimits_semicolon : Delimits ";" := ⟨';', rfl, by decide⟩

theorem delimits_equals : Delimits "=" := ⟨'=', rfl, by decide⟩

theorem delimits_space : Delimits " " := ⟨' ', rfl, by decide⟩

/-- A token by itself is the same token before a delimiter, unless it is in quotes. -/
theorem Word.IsToken.writes {kind : TokenKind} {text : String} (htoken : Word.IsToken ⟨kind, text⟩)
    (hstring : kind ≠ .string) (hphrase : kind ≠ .quotedPhrase) : Writes text [⟨kind, text⟩] := by
  intro rest restWords hstops hrest
  obtain ⟨c, text, htext, hblank, hbeginning⟩ := htoken.beginning
  have hplain : c ≠ '\'' ∧ c ≠ '"' := by
    have hstrings : beginningWith '\'' = [(.string, string)] := rfl
    have hphrases : beginningWith '"' = [(.quotedPhrase, quotedPhrase)] := rfl
    constructor
    · rintro rfl
      exact hstring (kind_of_single hstrings (by decide) hbeginning)
    · rintro rfl
      exact hphrase (kind_of_single hphrases (by decide) hbeginning)
  rw [htext]
  exact .token htext hblank (beginning_append hplain.1 hplain.2 hstops.separates hbeginning) hrest

theorem writes_identifier {name : String} (htoken : (Word.identifier name).IsToken) :
    Writes name [.identifier name] :=
  htoken.writes (by decide) (by decide)

theorem toList_quoted (quote : Char) (chars : List Char) :
    (String.singleton quote ++ String.ofList chars ++ String.singleton quote).toList =
      quote :: (chars ++ [quote]) := by
  simp

theorem writes_string (text : String) :
    Writes ("'" ++ String.ofList (Text.Doubled.encode '\'' text.toList) ++ "'")
      [⟨.string, "'" ++ String.ofList (Text.Doubled.encode '\'' text.toList) ++ "'"⟩] := by
  intro rest restWords hstops hrest
  have htext := toList_quoted '\'' (Text.Doubled.encode '\'' text.toList)
  have hquote : rest.head? ≠ some '\'' := by
    intro hhead
    exact absurd (hstops _ hhead) (by decide)
  have hbeginning := beginning_string text.toList rest hquote
  change Written ((String.singleton '\'' ++ _ ++ String.singleton '\'').toList ++ rest) _
  rw [htext]
  refine .token htext rfl ?_ hrest
  simpa using hbeginning

theorem writes_phrase (text : String) :
    Writes ("\"" ++ String.ofList (Text.Escaped.encode '"' text.toList) ++ "\"")
      [⟨.quotedPhrase, "\"" ++ String.ofList (Text.Escaped.encode '"' text.toList) ++ "\""⟩] := by
  intro rest restWords hstops hrest
  have htext := toList_quoted '"' (Text.Escaped.encode '"' text.toList)
  have hbeginning := beginning_phrase text.toList rest
  change Written ((String.singleton '"' ++ _ ++ String.singleton '"').toList ++ rest) _
  rw [htext]
  refine .token htext rfl ?_ hrest
  simpa using hbeginning

/-! ## Lists -/

/-- Texts with a separator between neighbours are read as their words with its word between them. -/
theorem writes_intercalate (separator : Word) (hdelimits : Delimits separator.text)
    (hopens : Opens separator.text [separator]) {texts : List String} {wordLists : List (List Word)}
    (hall : List.Forall₂ Writes texts wordLists) :
    Writes (separator.text.intercalate texts) (Word.joined separator wordLists) := by
  induction hall with
  | nil => exact writes_empty
  | cons hfirst hrest ih =>
    cases hrest with
    | nil =>
      rw [String.intercalate_singleton]
      exact hfirst
    | cons =>
      have hall := (hfirst.append_opens hdelimits hopens).append_writes ih
      rw [List.append_assoc] at hall
      rw [String.intercalate_cons_cons]
      exact hall

def Word.spaced (words : List Word) : String := " ".intercalate (words.map Word.text)

theorem writes_spaced {words : List Word} (hwords : ∀ word ∈ words, Writes word.text [word]) :
    Writes (Word.spaced words) words := by
  induction words with
  | nil => exact writes_empty
  | cons word words ih =>
    obtain ⟨hword, hrest⟩ := List.forall_mem_cons.mp hwords
    cases words with
    | nil =>
      rw [Word.spaced, List.map_singleton, String.intercalate_singleton]
      exact hword
    | cons next words =>
      have hall := (hword.append_opens delimits_space opens_space).append_writes (ih hrest)
      rw [Word.spaced, List.map_cons, List.map_cons, String.intercalate_cons_cons]
      exact hall

theorem forall₂_writes {α : Type} {print : α → String} {words : α → List Word} {values : List α}
    (hvalues : ∀ value ∈ values, Writes (print value) (words value)) :
    List.Forall₂ Writes (values.map print) (values.map words) := by
  induction values with
  | nil => exact .nil
  | cons value values ih =>
    obtain ⟨hvalue, hrest⟩ := List.forall_mem_cons.mp hvalues
    exact .cons hvalue (ih hrest)

end ODataOptions
