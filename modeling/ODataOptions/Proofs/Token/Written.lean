import ODataOptions.Proofs.Token.Beginning
import ODataOptions.Proofs.Token.Word

/-!
# Texts written in words

A text is written in words if it is cut into tokens of these words, whatever blanks stand between
them.  Such a text yields these tokens and no fault.  Conversely, where a text has no fault, each of
its tokens is a token by itself too.
-/

namespace ODataOptions

open Pattern TokenPattern

/-! ## Tokens by themselves -/

theorem lexemesFrom_nil (steps offset : Nat) : lexemesFrom steps offset [] = [] := by
  cases steps <;> rfl

theorem lexemesFrom_blank {c : Char} (hblank : isBlank c = true) (steps offset : Nat)
    (text : List Char) :
    lexemesFrom (steps + 1) offset (c :: text) =
      lexemesFrom steps (offset + c.utf8Size) text := by
  rw [lexemesFrom, if_pos hblank]

theorem lexemesFrom_token {c : Char} {text : List Char} {kind : TokenKind} {length : Nat}
    (hblank : isBlank c = false) (htoken : beginning (c :: text) = .token kind length)
    (steps offset : Nat) :
    ∃ stop, lexemesFrom (steps + 1) offset (c :: text) =
      .token ⟨kind, String.ofList ((c :: text).take length), ⟨offset, stop⟩⟩ ::
        lexemesFrom steps stop ((c :: text).drop length) := by
  rw [lexemesFrom, if_neg (by simp [hblank]), htoken]
  exact ⟨_, rfl⟩

theorem lexemesFrom_invalid {c : Char} {text : List Char} {length : Nat}
    (hblank : isBlank c = false) (hinvalid : beginning (c :: text) = .invalid length)
    (steps offset : Nat) :
    ∃ word span rest, lexemesFrom (steps + 1) offset (c :: text) = .invalid word span :: rest := by
  rw [lexemesFrom, if_neg (by simp [hblank]), hinvalid]
  exact ⟨_, _, _, rfl⟩

/-- A text is one token exactly if its beginning takes all of it. -/
theorem Word.isToken_of_beginning {word : Word} {c : Char} {text : List Char}
    (htext : word.text.toList = c :: text) (hblank : isBlank c = false)
    (htoken : beginning (c :: text) = .token word.kind (c :: text).length) : word.IsToken := by
  obtain ⟨stop, hlexemes⟩ := lexemesFrom_token hblank htoken text.length 0
  refine ⟨⟨0, stop⟩, ?_⟩
  rw [List.take_length, List.drop_length, lexemesFrom_nil, ← htext, String.ofList_toList] at hlexemes
  rw [lexemes, htext, List.length_cons, ← htext]
  exact hlexemes

theorem length_le_of_mem_lexemesFrom {steps offset : Nat} {text : List Char} {token : Token}
    (hmem : .token token ∈ lexemesFrom steps offset text) :
    token.text.toList.length ≤ text.length := by
  induction steps generalizing offset text with
  | zero => cases hmem
  | succ steps ih =>
    cases text with
    | nil => cases hmem
    | cons c text =>
      cases hblank : isBlank c with
      | true =>
        rw [lexemesFrom_blank hblank] at hmem
        exact Nat.le_succ_of_le (ih hmem)
      | false =>
        have hrest : ∀ {length stop}, .token token ∈ lexemesFrom steps stop ((c :: text).drop length) →
            token.text.toList.length ≤ (c :: text).length := by
          intro length stop hmem
          apply Nat.le_trans (ih hmem)
          rw [List.length_drop]
          exact Nat.sub_le _ _
        rw [lexemesFrom, if_neg (by simp [hblank])] at hmem
        split at hmem
        · rcases List.mem_cons.mp hmem with heq | hmem
          · cases heq
            rw [String.toList_ofList]
            exact List.length_take_le' _ _
          · exact hrest hmem
        · rcases List.mem_cons.mp hmem with heq | hmem
          · cases heq
          · exact hrest hmem

/-- A word that is a token is what its own text begins with. -/
theorem Word.IsToken.beginning {word : Word} (htoken : word.IsToken) :
    ∃ c text, word.text.toList = c :: text ∧ isBlank c = false ∧
      ODataOptions.beginning (c :: text) = .token word.kind (c :: text).length := by
  obtain ⟨span, hlexemes⟩ := htoken
  rw [lexemes] at hlexemes
  cases htext : word.text.toList with
  | nil =>
    rw [htext] at hlexemes
    cases hlexemes
  | cons c text =>
    rw [htext] at hlexemes
    refine ⟨c, text, rfl, ?_⟩
    cases hblank : isBlank c with
    | true =>
      rw [List.length_cons, lexemesFrom_blank hblank] at hlexemes
      have hmem : Lexeme.token ⟨word.kind, word.text, span⟩ ∈
          lexemesFrom text.length (0 + c.utf8Size) text := by
        rw [hlexemes]
        exact List.mem_singleton_self _
      have hle := length_le_of_mem_lexemesFrom hmem
      rw [htext, List.length_cons] at hle
      exact absurd hle (Nat.not_succ_le_self _)
    | false =>
      refine ⟨rfl, ?_⟩
      cases hbeginning : ODataOptions.beginning (c :: text) with
      | invalid length =>
        obtain ⟨_, _, _, hinvalid⟩ := lexemesFrom_invalid hblank hbeginning text.length 0
        rw [List.length_cons, hinvalid] at hlexemes
        cases hlexemes
      | token kind length =>
        obtain ⟨stop, hfirst⟩ := lexemesFrom_token hblank hbeginning text.length 0
        rw [List.length_cons, hfirst] at hlexemes
        obtain ⟨hhead, -⟩ := List.cons_eq_cons.mp hlexemes
        simp only [Lexeme.token.injEq, Token.mk.injEq] at hhead
        obtain ⟨rfl, hword, -⟩ := hhead
        have htake := congrArg String.toList hword
        rw [String.toList_ofList, htext] at htake
        have hlength := congrArg List.length htake
        rw [List.length_take, Nat.min_eq_left (le_length_of_beginning hbeginning)] at hlength
        rw [hlength]

/-! ## Texts without faults -/

/-- The time behind a date that is read as a number does not become a token. -/
theorem invalid_mem_lexemesFrom {tens ones : Char} (htens : tens.isDigit = true)
    (hones : ones.isDigit = true) (rest : List Char) {steps : Nat} (hsteps : 2 ≤ steps)
    (offset : Nat) :
    ∃ word span, .invalid word span ∈
      lexemesFrom steps offset ('T' :: tens :: ones :: ':' :: rest) := by
  obtain ⟨steps, rfl⟩ := Nat.exists_eq_add_of_le' hsteps
  have hname := beginning_minutes htens hones rest
  obtain ⟨stop, hfirst⟩ := lexemesFrom_token rfl hname (steps + 1) offset
  obtain ⟨word, span, behind, hsecond⟩ := lexemesFrom_invalid rfl (beginning_colon rest) steps stop
  refine ⟨word, span, ?_⟩
  rw [hfirst]
  change _ ∈ _ :: lexemesFrom (steps + 1) stop (':' :: rest)
  rw [hsecond]
  simp

/-- What a text begins with is a token by itself too, if nothing longer was left out of it. -/
theorem isToken_take_of_beginning {c : Char} {text : List Char} {kind : TokenKind} {length : Nat}
    (hblank : isBlank c = false) (hbeginning : beginning (c :: text) = .token kind length)
    (hlongest : longestOf (c :: text) all = some (kind, length)) :
    Word.IsToken ⟨kind, String.ofList ((c :: text).take length)⟩ := by
  have hself := beginning_take hbeginning hlongest
  have hle := le_length_of_beginning hbeginning
  obtain ⟨shorter, rfl⟩ := Nat.exists_eq_succ_of_ne_zero (Nat.ne_of_gt (pos_of_beginning hbeginning))
  have hlength : (c :: text.take shorter).length = shorter + 1 := by
    rw [List.length_cons, List.length_take, Nat.min_eq_left (Nat.le_of_succ_le_succ hle)]
  apply Word.isToken_of_beginning String.toList_ofList hblank
  rw [hlength]
  exact hself

theorem isToken_of_mem_lexemesFrom {steps offset : Nat} {text : List Char} {token : Token}
    (hsteps : text.length ≤ steps)
    (hfaultless : ∀ lexeme ∈ lexemesFrom steps offset text, lexeme.invalid? = none)
    (hmem : .token token ∈ lexemesFrom steps offset text) : token.word.IsToken := by
  induction steps generalizing offset text with
  | zero => cases hmem
  | succ steps ih =>
    cases text with
    | nil => cases hmem
    | cons c text =>
      cases hblank : isBlank c with
      | true =>
        rw [lexemesFrom_blank hblank] at hfaultless hmem
        exact ih (Nat.le_of_succ_le_succ hsteps) hfaultless hmem
      | false =>
        cases hbeginning : beginning (c :: text) with
        | invalid length =>
          obtain ⟨word, span, rest, hinvalid⟩ := lexemesFrom_invalid hblank hbeginning steps offset
          rw [hinvalid] at hfaultless
          cases hfaultless _ List.mem_cons_self
        | token kind length =>
          obtain ⟨stop, hfirst⟩ := lexemesFrom_token hblank hbeginning steps offset
          rw [hfirst] at hfaultless hmem
          obtain ⟨-, hrest⟩ := List.forall_mem_cons.mp hfaultless
          have hpos := pos_of_beginning hbeginning
          have hle := le_length_of_beginning hbeginning
          have hdrop : ((c :: text).drop length).length ≤ steps := by
            rw [List.length_drop]
            omega
          rcases List.mem_cons.mp hmem with heq | hmem
          · cases heq
            obtain ⟨found, hlongest, rfl | ⟨rfl, rfl, hminutes⟩⟩ := longestOf_of_beginning hbeginning
            · exact isToken_take_of_beginning hblank hbeginning hlongest
            · obtain ⟨tens, ones, rest, htens, hones, htime⟩ := drop_date hlongest hminutes
              rw [htime] at hrest hdrop
              obtain ⟨word, span, hinvalid⟩ :=
                invalid_mem_lexemesFrom htens hones rest (Nat.le_trans (by simp) hdrop) stop
              cases hrest _ hinvalid
          · exact ih hdrop hrest hmem

/-- Each token of a text without faults is a token by itself. -/
theorem isToken_of_mem_tokens {source : String} (hfaultless : invalidParts source = [])
    {token : Token} (hmem : token ∈ tokens source) (hkind : token.kind ≠ .endOfInput) :
    token.word.IsToken := by
  rcases List.mem_append.mp hmem with hmem | hmem
  · obtain ⟨lexeme, hlexeme, htoken⟩ := List.mem_filterMap.mp hmem
    apply isToken_of_mem_lexemesFrom (Nat.le_refl _) (List.filterMap_eq_nil_iff.mp hfaultless)
    cases lexeme with
    | invalid => cases htoken
    | token found =>
      cases htoken
      exact hlexeme
  · rw [List.mem_singleton] at hmem
    rw [hmem] at hkind
    exact absurd rfl hkind

/-! ## Texts of several tokens -/

/-- A text that is cut into tokens of these words. -/
inductive Written : List Char → List Word → Prop
  | nil : Written [] []
  | blank {c : Char} {text : List Char} {words : List Word} (hblank : isBlank c = true)
      (htext : Written text words) : Written (c :: text) words
  | token {word : Word} {c : Char} {chars text : List Char} {words : List Word}
      (hword : word.text.toList = c :: chars) (hblank : isBlank c = false)
      (htoken : beginning (c :: chars ++ text) = .token word.kind (c :: chars).length)
      (htext : Written text words) : Written (c :: chars ++ text) (word :: words)

theorem Written.kind_ne_endOfInput {text : List Char} {words : List Word}
    (hwritten : Written text words) : ∀ word ∈ words, word.kind ≠ .endOfInput := by
  induction hwritten with
  | nil => simp
  | blank _ _ ih => exact ih
  | token _ _ htoken _ ih =>
    exact List.forall_mem_cons.mpr ⟨kind_ne_endOfInput_of_beginning htoken, ih⟩

/-- A text that is cut into tokens is read as them, by induction on the cut. -/
theorem Written.lexemesFrom {text : List Char} {words : List Word} (hwritten : Written text words)
    {steps : Nat} (hsteps : text.length ≤ steps) (offset : Nat) :
    ∃ tokens : List Token, ODataOptions.lexemesFrom steps offset text = tokens.map Lexeme.token ∧
      tokens.map Token.word = words := by
  induction hwritten generalizing steps offset with
  | nil => exact ⟨[], lexemesFrom_nil steps offset, rfl⟩
  | blank hblank _ ih =>
    cases steps with
    | zero => cases hsteps
    | succ steps =>
      rw [lexemesFrom_blank hblank]
      exact ih (Nat.le_of_succ_le_succ hsteps) _
  | @token word c chars text words hword hblank htoken _ ih =>
    cases steps with
    | zero => cases hsteps
    | succ steps =>
      rw [List.cons_append] at htoken ⊢
      obtain ⟨stop, hfirst⟩ := lexemesFrom_token hblank htoken steps offset
      have hrest : text.length ≤ steps := by
        rw [List.length_append, List.length_cons] at hsteps
        omega
      obtain ⟨tokens, htokens, hwords⟩ := ih hrest stop
      refine ⟨⟨word.kind, word.text, ⟨offset, stop⟩⟩ :: tokens, ?_, ?_⟩
      · rw [hfirst, ← List.cons_append, List.drop_left, List.take_left, ← hword,
          String.ofList_toList, htokens]
        rfl
      · rw [List.map_cons, hwords]
        rfl

/-- A text that is written in words has no faults, and its tokens are of these words. -/
theorem Written.tokens {source : String} {words : List Word}
    (hwritten : Written source.toList words) :
    invalidParts source = [] ∧
      ∃ found stop, ODataOptions.tokens source = found ++ [.endOfInput stop] ∧
        found.map Token.word = words := by
  obtain ⟨found, hlexemes, hwords⟩ := hwritten.lexemesFrom (Nat.le_refl _) 0
  have htokens : lexemes source = found.map Lexeme.token := hlexemes
  constructor
  · rw [invalidParts, htokens, List.filterMap_map]
    exact List.filterMap_eq_nil_iff.mpr fun token _ => rfl
  · refine ⟨found, source.utf8ByteSize, ?_, hwords⟩
    rw [ODataOptions.tokens, htokens, List.filterMap_map]
    congr 1
    exact List.filterMap_some

end ODataOptions
