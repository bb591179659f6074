import ODataOptions.Proofs.Expression.Operations
import ODataOptions.Proofs.Parser.Refuses

/-!
# Paths that are mistaken for negations

Where a negation may stand, a path that begins with a member of the name `not` is taken for one.  It is
not read there:  behind the word comes no operand, or else one that the parenthesis does not close
behind.
-/

namespace ODataOptions

open ODataOptions.Parser

/-- No operand begins with the word. -/
def Word.StartsNone (word : Word) : Prop := word.kind ∉ Expression.Grammar.operandKinds

theorem Word.StartsNone.kind_ne {token : Token} (hnone : token.word.StartsNone) {kind : TokenKind}
    (hmem : kind ∈ Expression.Grammar.operandKinds) : token.kind ≠ kind := by
  rintro rfl
  exact hnone hmem

namespace Expression.Grammar

variable {scope : Scope} {owner : StructuredType} {inner : Grammar} {depth : Nat}
  {words : List Word} {follow : Word → Prop} {P : TypedExpression → Prop}

/-! ## Without an operand -/

theorem refuses_primary : Refuses (primary scope owner inner) Word.StartsNone := by
  apply refuses_current
  intro token hnone
  split
  case h_10 => exact refuses_unexpected _
  all_goals exact absurd ‹token.kind = _› (hnone.kind_ne (by decide))

theorem refuses_comparison : Refuses (comparison scope owner inner) Word.StartsNone :=
  ((refuses_primary.bind _).bind _).bind _

theorem refuses_negation : Refuses (negation scope owner inner) Word.StartsNone := by
  apply refuses_current
  intro token hnone
  have hword : token.isWord "not" = false := by
    have hkind : token.kind ≠ .identifier := hnone.kind_ne (by decide)
    simp [Token.isWord, hkind]
  rw [hword]
  exact refuses_comparison

theorem refuses_operand (levels : Nat) :
    Refuses (ofLevels scope owner levels).operand Word.StartsNone := by
  cases levels with
  | zero => exact refuses_failHere _
  | succ => exact refuses_negation

/-- The word `not` is no negation without an operand. -/
theorem reads_negation_false (levels : Nat) (hahead : Ahead words follow Word.StartsNone) :
    Reads (negation scope owner (ofLevels scope owner levels)) depth (.identifier "not" :: words)
      follow False P := by
  refine reads_current (R := fun word => word.isWord "not" = true) rfl ?_
  intro token hword
  rw [← Token.isWord_word, hword]
  have hnegated : Reads (negated (ofLevels scope owner levels)) (depth + 1)
      (.identifier "not" :: words) follow False P :=
    reads_expect rfl fun _ _ => ((refuses_operand levels).reads hahead fun _ => True).bind_false
  exact (reads_nested fun _ => hnegated).congr_fits (by simp)

/-- What begins with `not` is a negation, which fails if no operand begins behind the word. -/
theorem reads_disjunction_false (levels : Nat) (hahead : Ahead words follow Word.StartsNone) :
    Reads (disjunction scope owner (ofLevels scope owner levels)) depth
      (.identifier "not" :: words) follow False P :=
  (((reads_negation_false (P := P) levels hahead).bind_false (Q := P)).bind_false)

/-! ## With an operand that ends too early -/

section Early

/-- Behind an operand before this token, operations end: the token begins an operand, and if it is an
operator too, then no operand follows it. -/
structure Blocks (token next : Token) : Prop where
  starts : token.kind ∈ operandKinds
  ends : (∀ operator : BinaryOperator, token.isWord operator.keyword = false) ∨ next.word.StartsNone

variable {token next : Token} {more : List Token} {cursor : Cursor}

theorem Blocks.kind_ne (hblocks : Blocks token next) (kind : TokenKind)
    (hother : kind ∉ operandKinds) : token.kind ≠ kind := by
  rintro rfl
  exact hother hblocks.starts

/-- An operator is not read before such a token, or else no operand is read behind it. -/
theorem Blocks.operator (hblocks : Blocks token next) {operand : Parser TypedExpression}
    (hoperand : Refuses operand Word.StartsNone) (operators : List BinaryOperator)
    (hahead : cursor.ahead = token :: next :: more) :
    oneOfWords BinaryOperator.keyword operators cursor = .ok none cursor ∨
    ∃ operator rest, oneOfWords BinaryOperator.keyword operators cursor = .ok (some operator) rest ∧
      ∃ fault last, operand rest = .error fault last := by
  have hcurrent : cursor.current = token := by
    rw [Cursor.current, hahead]
  rw [oneOfWords_run, hcurrent]
  cases hfound : operators.find? fun operator => token.isWord operator.keyword with
  | none => exact .inl rfl
  | some operator =>
    refine .inr ⟨operator, cursor.advance, rfl, hoperand _ ?_⟩
    have hword := List.find?_some hfound
    rcases hblocks.ends with hnone | hnext
    · rw [hnone operator] at hword
      cases hword
    · have hadvance : cursor.advance.current = next := by
        have hkind := hblocks.kind_ne .endOfInput (by decide)
        rw [Cursor.current, Cursor.advance, hahead]
        simp [hkind]
      rw [hadvance]
      exact hnext

/-- An operation ends before a token that blocks, since its operator would have no operand. -/
theorem Blocks.operations (hblocks : Blocks token next) {operand : Parser TypedExpression}
    (hoperand : Refuses operand Word.StartsNone) (operators : List BinaryOperator)
    (hleaves : Leaves operand cursor (token :: next :: more)) :
    Leaves (operations operators operand) cursor (token :: next :: more) :=
  hleaves.chain fun _ hahead => hblocks.operator hoperand operators hahead

theorem Blocks.comparison (hblocks : Blocks token next)
    (hleaves : Leaves (primary scope owner inner) cursor (token :: next :: more)) :
    Leaves (comparison scope owner inner) cursor (token :: next :: more) := by
  have hadditive : Leaves (additive scope owner inner) cursor (token :: next :: more) :=
    hblocks.operations (refuses_primary.bind _) _ (hblocks.operations refuses_primary _ hleaves)
  have hrefuses : Refuses (additive scope owner inner) Word.StartsNone :=
    (refuses_primary.bind _).bind _
  apply hadditive.bind
  intro left behind hahead value rest hrun
  obtain ⟨_, _, hfound, hrest⟩ := bind_eq_ok_iff.mp hrun
  rcases hblocks.operator hrefuses _ hahead with hnone | ⟨operator, next, hsome, fault, last, herror⟩
  · rw [hnone] at hfound
    cases hfound
    cases hrest
    exact hahead
  · rw [hsome] at hfound
    cases hfound
    obtain ⟨_, _, hright, -⟩ := bind_eq_ok_iff.mp hrest
    rw [herror] at hright
    cases hright

theorem continued_leaves {member : Member} {result : Member × Option StructuredType} {rest : Cursor}
    (hslash : cursor.current.kind ≠ .slash)
    (hrun : memberSegment.continued member cursor = .ok result rest) :
    result.2 = none ∧ rest = cursor := by
  rw [memberSegment.continued] at hrun
  cases hnext : next? member with
  | none =>
    rw [hnext] at hrun
    cases hrun
    exact ⟨rfl, rfl⟩
  | some type =>
    rw [hnext] at hrun
    obtain ⟨_, _, haccept, hresult⟩ := bind_eq_ok_iff.mp hrun
    have hnot : cursor.current.word.isA .slash = false := Word.isA_eq_false rfl hslash
    rw [accept_run, ← Token.isA_word, hnot] at haccept
    cases haccept
    cases hresult
    exact ⟨rfl, rfl⟩

/-- A path ends behind a name that no slash follows. -/
theorem memberSegment_leaves {result : Member × Option StructuredType} {rest : Cursor}
    (hslash : cursor.advance.current.kind ≠ .slash)
    (hrun : memberSegment scope owner cursor = .ok result rest) :
    result.2 = none ∧ rest = cursor.advance := by
  obtain ⟨token, middle, htoken, hrest⟩ := bind_eq_ok_iff.mp hrun
  rw [expect_run] at htoken
  split at htoken
  · cases htoken
    cases hproperty : scope.schema.property? owner cursor.current.text with
    | some property =>
      rw [hproperty] at hrest
      exact continued_leaves hslash hrest
    | none =>
      rw [hproperty] at hrest
      cases hnavigation : scope.schema.navigation? owner cursor.current.text with
      | none =>
        rw [hnavigation] at hrest
        cases hrest
      | some navigation =>
        rw [hnavigation] at hrest
        cases hcollection : navigation.collection with
        | true =>
          simp only [hcollection, if_true] at hrest
          cases hrest
        | false =>
          simp only [hcollection, Bool.false_eq_true, if_false] at hrest
          exact continued_leaves hslash hrest
  · cases htoken

theorem leaves_memberPath (hslash : cursor.advance.current.kind ≠ .slash) :
    Leaves (memberPath scope owner) cursor cursor.advance.ahead := by
  intro typed rest hrun
  rw [memberPath_run] at hrun
  split at hrun
  · next path middle hpath =>
    cases hrun
    obtain ⟨⟨member, next?⟩, behind, hstep, hrest⟩ := bind_eq_ok_iff.mp
      (show unfoldUpTo (memberSegment scope) (cursor.ahead.length + 1) owner cursor = _ from hpath)
    obtain ⟨rfl, rfl⟩ := memberSegment_leaves hslash hstep
    cases hrest
    rfl
  · cases hrun

/-- An operator at the place of an operand is taken for a path. -/
theorem leaves_primary {operator : BinaryOperator}
    (hword : cursor.current.word = .identifier operator.keyword)
    (hslash : cursor.advance.current.kind ≠ .slash) :
    Leaves (primary scope owner inner) cursor cursor.advance.ahead := by
  have hkind : cursor.current.kind = .identifier := congrArg Word.kind hword
  have htext : cursor.current.text = operator.keyword := congrArg Word.text hword
  have hrun : primary scope owner inner cursor = named scope owner inner cursor := by
    rw [primary, bind_run, current_run]
    simp only [hkind]
  have hmethod : Method.ofName? operator.keyword = none := by cases operator <;> rfl
  intro typed rest hok
  rw [hrun, named_run] at hok
  split at hok
  · cases hok
    rfl
  · split at hok
    · cases hok
      rfl
    · split at hok
      · refine Leaves.nested _ (leaves_of_error ?_) typed rest hok
        have hname : Method.ofName? (Cursor.current { cursor with depth := cursor.depth + 1 }).text =
            none := htext ▸ hmethod
        rw [methodCall, bind_run, current_run]
        simp only [hname]
        exact ⟨_, _, rfl⟩
      · exact leaves_memberPath hslash typed rest hok

theorem Blocks.negation (hblocks : Blocks token next) {operator : BinaryOperator}
    (hword : cursor.current.word = .identifier operator.keyword)
    (hahead : cursor.advance.ahead = token :: next :: more) :
    Leaves (negation scope owner inner) cursor (token :: next :: more) := by
  have hslash : cursor.advance.current.kind ≠ .slash := by
    rw [Cursor.current, hahead]
    exact hblocks.kind_ne .slash (by decide)
  have hnot : cursor.current.word.isWord "not" = false := by
    rw [hword]
    cases operator <;> rfl
  intro typed rest hrun
  rw [Grammar.negation, bind_run, current_run] at hrun
  simp only [← Token.isWord_word, hnot, Bool.false_eq_true, if_false] at hrun
  exact hblocks.comparison (hahead ▸ leaves_primary hword hslash) typed rest hrun

theorem Blocks.operand (hblocks : Blocks token next) {operator : BinaryOperator}
    (hword : cursor.current.word = .identifier operator.keyword)
    (hahead : cursor.advance.ahead = token :: next :: more) (levels : Nat) :
    Leaves (ofLevels scope owner levels).operand cursor (token :: next :: more) := by
  cases levels with
  | zero => exact leaves_of_error ⟨_, _, rfl⟩
  | succ => exact hblocks.negation hword hahead

theorem Blocks.negated (hblocks : Blocks token next) (operator : BinaryOperator)
    (hword : cursor.advance.current.word = .identifier operator.keyword)
    (hahead : cursor.advance.advance.ahead = token :: next :: more) (levels : Nat) :
    Leaves (Grammar.negated (ofLevels scope owner levels)) cursor (token :: next :: more) := by
  intro typed rest hrun
  obtain ⟨_, middle, hexpect, hrest⟩ := bind_eq_ok_iff.mp hrun
  rw [expect_run] at hexpect
  split at hexpect
  · cases hexpect
    refine (hblocks.operand hword hahead levels).bind (fun operand behind hbehind => ?_) typed rest hrest
    apply (leaves_ofExcept hbehind).bind
    intro _ _ hbehind
    exact leaves_pure hbehind
  · cases hexpect

/-- A negation of what should be an operator ends in front of the operand behind it. -/
theorem Blocks.disjunction (hblocks : Blocks token next) {operator : BinaryOperator}
    (hnot : cursor.current.word = .identifier "not")
    (hword : cursor.advance.current.word = .identifier operator.keyword)
    (hahead : cursor.advance.advance.ahead = token :: next :: more) (levels : Nat) :
    Leaves (Grammar.disjunction scope owner (ofLevels scope owner levels)) cursor
      (token :: next :: more) := by
  have hnegation : Leaves (Grammar.negation scope owner (ofLevels scope owner levels)) cursor
      (token :: next :: more) := by
    have hisWord : cursor.current.isWord "not" = true := by
      rw [← Token.isWord_word, hnot]
      rfl
    intro typed rest hrun
    rw [Grammar.negation, bind_run, current_run] at hrun
    simp only [hisWord, if_true] at hrun
    refine (hblocks.negated operator ?_ ?_ levels).nested _ typed rest hrun
    · rw [Cursor.advance_withDepth cursor]
      exact hword
    · rw [Cursor.advance_withDepth cursor, Cursor.advance_withDepth cursor.advance]
      exact hahead
  exact hblocks.operations (refuses_negation.bind _) _
    (hblocks.operations refuses_negation _ hnegation)

/-- So the parenthesis that closes the operation is missed. -/
theorem Blocks.group (hblocks : Blocks token next) {operator : BinaryOperator}
    (hnot : cursor.advance.current.word = .identifier "not")
    (hword : cursor.advance.advance.current.word = .identifier operator.keyword)
    (hahead : cursor.advance.advance.advance.ahead = token :: next :: more) (levels : Nat) :
    ∃ fault last, Grammar.group (ofLevels scope owner levels) cursor = .error fault last := by
  cases hrun : Grammar.group (ofLevels scope owner levels) cursor with
  | error fault last => exact ⟨fault, last, rfl⟩
  | ok typed rest =>
    obtain ⟨_, _, hopen, hrest⟩ := bind_eq_ok_iff.mp hrun
    obtain ⟨_, behind, hwhole, hrest⟩ := bind_eq_ok_iff.mp hrest
    obtain ⟨_, _, hclose, -⟩ := bind_eq_ok_iff.mp hrest
    rw [expect_run] at hopen hclose
    split at hopen
    · cases hopen
      have hbehind : behind.ahead = token :: next :: more := by
        cases levels with
        | zero => cases hwhole
        | succ levels => exact hblocks.disjunction hnot hword hahead levels _ _ hwhole
      have hcurrent : behind.current = token := by
        rw [Cursor.current, hbehind]
      have hkind : token.word.isA .closeParen = false :=
        Word.isA_eq_false rfl (hblocks.kind_ne .closeParen (by decide))
      rw [hcurrent, ← Token.isA_word, hkind] at hclose
      cases hclose
    · cases hopen

end Early

/-- What the words of an expression begin with is not an operator, or the name of one to which a path
belongs. -/
theorem exists_words_blocking {expression : Expression} {type : ExpressionType}
    (htype : HasType scope owner expression type) :
    ∃ word more, expression.words = word :: more ∧ word.kind ∈ operandKinds ∧
      ((∀ operator : BinaryOperator, word.isWord operator.keyword = false) ∨
        Ahead more (· = .closeParen) Word.StartsNone) := by
  cases htype with
  | literal value =>
    refine ⟨_, _, rfl, kind_mem_operandKinds value, .inl fun operator => ?_⟩
    cases value with
    | null => cases operator <;> rfl
    | boolean truth => cases truth <;> cases operator <;> rfl
    | _ => rfl
  | member hpath =>
    obtain ⟨first, path, rfl⟩ := hpath.exists_cons
    obtain ⟨more, hwords, hmore⟩ := Member.exists_pathWords first path
    refine ⟨_, more, hwords, .tail _ (.tail _ (.head _)), .inr ?_⟩
    rcases hmore with rfl | hslash
    · rintro _ rfl
      exact (by decide : TokenKind.closeParen ∉ operandKinds)
    · obtain ⟨tail, rfl⟩ := List.head?_eq_some_iff.mp hslash
      exact (by decide : TokenKind.slash ∉ operandKinds)
  | parameter => exact ⟨_, _, rfl, .tail _ (.head _), .inl fun _ => rfl⟩
  | not | logical | equality | ordering | arithmetic =>
    exact ⟨_, _, rfl, .head _, .inl fun _ => rfl⟩
  | @call method =>
    refine ⟨_, _, rfl, .tail _ (.tail _ (.head _)), .inl fun operator => ?_⟩
    cases operator <;> cases method <;> rfl

/-- An operation is not read back where its left operand is a member of the name `not`. -/
theorem reads_group_false {right : Expression} {type : ExpressionType}
    (htype : HasType scope owner right type) (operator : BinaryOperator) (levels : Nat) :
    Reads (group (ofLevels scope owner levels)) depth
      (.openParen :: .identifier "not" :: .identifier operator.keyword :: right.words ++ [.closeParen])
      follow False P := by
  obtain ⟨word, more, hwords, hkind, hends⟩ := exists_words_blocking htype
  rw [hwords]
  intro cursor rest _ hpasses _
  refine ⟨False.elim, fun _ => ?_⟩
  cases hpasses with
  | cons _ _ hpasses =>
    cases hpasses with
    | cons hnot _ hpasses =>
      cases hpasses with
      | cons hword _ hpasses =>
        cases hpasses with
        | cons hfirst hcurrent hpasses =>
          obtain ⟨middle, hmore, hclose⟩ := hpasses.append
          have hnext := hpasses.current_kind_ne (by simp)
          subst hfirst
          have hahead := Cursor.ahead_of_current hcurrent
          rw [Cursor.ahead_of_current hnext] at hahead
          refine Blocks.group ⟨hkind, ?_⟩ hnot hword hahead levels
          rcases hends with hnone | hends
          · exact .inl hnone
          · cases hclose with
            | cons hclose _ _ => exact .inr (hends.current hmore hclose)


end Expression.Grammar

end ODataOptions
