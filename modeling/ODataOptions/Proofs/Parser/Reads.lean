import Mathlib.Data.List.Forall2
import ODataOptions.Proofs.Parser.Passes
import ODataOptions.Proofs.Parser.Runs
import ODataOptions.Proofs.Token.Writes

/-!
# What parsers read

`Parser.Reads parser depth words follow fits P` says that at so many open levels the parser takes
exactly these words, if what comes next may follow them, and that its value satisfies `P`.  This is so
under the condition `fits`; if it does not hold, the parser fails.  As for what parsers yield, there is
one rule for each way to build a parser.
-/

namespace ODataOptions.Parser

variable {α β σ : Type} {depth : Nat} {words first second : List Word} {word : Word}
  {follow middle : Word → Prop} {fits fits' : Prop} {P Q : α → Prop}

def Reads (parser : Parser α) (depth : Nat) (words : List Word) (follow : Word → Prop) (fits : Prop)
    (P : α → Prop) : Prop :=
  ∀ ⦃cursor rest⦄, cursor.depth = depth → cursor.Passes words rest → follow rest.current.word →
    (fits → ∃ value, parser cursor = .ok value rest ∧ P value) ∧
    (¬ fits → ∃ fault last, parser cursor = .error fault last)

/-! ## Sequencing -/

theorem Reads.mono {parser : Parser α} {follow' : Word → Prop}
    (hreads : Reads parser depth words follow fits P) (hfollow : ∀ word, follow' word → follow word)
    (hfits : fits' ↔ fits) (himp : ∀ value, P value → Q value) :
    Reads parser depth words follow' fits' Q := by
  intro cursor rest hdepth hpasses hnext
  obtain ⟨hok, herror⟩ := hreads hdepth hpasses (hfollow _ hnext)
  refine ⟨fun h => ?_, fun h => herror fun h' => h (hfits.mpr h')⟩
  obtain ⟨value, hrun, hvalue⟩ := hok (hfits.mp h)
  exact ⟨value, hrun, himp value hvalue⟩

/-- Limits that admit the same words may be told in different ways. -/
theorem Reads.congr_fits {parser : Parser α} (hreads : Reads parser depth words follow fits P)
    (hfits : fits' ↔ fits) : Reads parser depth words follow fits' P :=
  hreads.mono (fun _ h => h) hfits fun _ h => h

/-- What is read before some words is read before fewer of them. -/
theorem Reads.narrow {parser : Parser α} {follow' : Word → Prop}
    (hreads : Reads parser depth words follow fits P) (hfollow : ∀ word, follow' word → follow word) :
    Reads parser depth words follow' fits P :=
  hreads.mono hfollow Iff.rfl fun _ h => h

theorem Reads.imp {parser : Parser α} (hreads : Reads parser depth words follow fits P)
    (himp : ∀ value, P value → Q value) : Reads parser depth words follow fits Q :=
  hreads.mono (fun _ h => h) Iff.rfl himp

theorem reads_pure {value : α} (hfits : fits) (hvalue : P value) :
    Reads (pure value) depth [] follow fits P := by
  intro cursor rest _ hpasses _
  cases hpasses
  exact ⟨fun _ => ⟨value, rfl, hvalue⟩, fun h => absurd hfits h⟩

theorem Reads.bind {P : β → Prop} {parser : Parser β} {next : β → Parser α}
    (hparser : Reads parser depth first middle fits P) (hahead : Ahead second follow middle)
    (hnext : ∀ value, P value → Reads (next value) depth second follow fits' Q) :
    Reads (parser >>= next) depth (first ++ second) follow (fits ∧ fits') Q := by
  intro cursor rest hdepth hpasses hfollow
  obtain ⟨between, hfirst, hsecond⟩ := hpasses.append
  obtain ⟨hok, herror⟩ := hparser hdepth hfirst (hahead.current hsecond hfollow)
  rw [bind_run]
  by_cases hfits : fits
  · obtain ⟨value, hrun, hvalue⟩ := hok hfits
    have hdepth' : between.depth = depth := hfirst.depth_eq.trans hdepth
    obtain ⟨hok', herror'⟩ := hnext value hvalue hdepth' hsecond hfollow
    rw [hrun]
    exact ⟨fun h => hok' h.2, fun h => herror' fun h' => h ⟨hfits, h'⟩⟩
  · obtain ⟨fault, last, hrun⟩ := herror hfits
    rw [hrun]
    exact ⟨fun h => absurd h.1 hfits, fun _ => ⟨fault, last, rfl⟩⟩

/-- A part that always succeeds does not add a condition. -/
theorem Reads.bind_sure {P : β → Prop} {parser : Parser β} {next : β → Parser α}
    (hparser : Reads parser depth first middle True P) (hahead : Ahead second follow middle)
    (hnext : ∀ value, P value → Reads (next value) depth second follow fits Q) :
    Reads (parser >>= next) depth (first ++ second) follow fits Q :=
  (hparser.bind hahead hnext).congr_fits (iff_of_eq (true_and _).symm)

/-- Nor does a rest that always succeeds. -/
theorem Reads.bind_rest {P : β → Prop} {parser : Parser β} {next : β → Parser α}
    (hparser : Reads parser depth first middle fits P) (hahead : Ahead second follow middle)
    (hnext : ∀ value, P value → Reads (next value) depth second follow True Q) :
    Reads (parser >>= next) depth (first ++ second) follow fits Q :=
  (hparser.bind hahead hnext).congr_fits (iff_of_eq (and_true _).symm)

/-- What reads nothing more and always succeeds adds neither words nor a condition. -/
theorem Reads.bind_end {P : β → Prop} {parser : Parser β} {next : β → Parser α}
    (hparser : Reads parser depth words middle fits P) (hfollow : ∀ word, follow word → middle word)
    (hnext : ∀ value, P value → Reads (next value) depth [] follow True Q) :
    Reads (parser >>= next) depth words follow fits Q := by
  have hbind : Reads (parser >>= next) depth (words ++ []) follow fits Q :=
    hparser.bind_rest hfollow hnext
  rwa [List.append_nil] at hbind

/-- The last part of a sequence that goes on without a condition. -/
theorem Reads.map {P : β → Prop} {parser : Parser β} {f : β → α}
    (hparser : Reads parser depth words follow fits P) (hf : ∀ value, P value → Q (f value)) :
    Reads (parser >>= fun value => Pure.pure (f value)) depth words follow fits Q := by
  intro cursor rest hdepth hpasses hnext
  obtain ⟨hok, herror⟩ := hparser hdepth hpasses hnext
  rw [bind_run]
  constructor
  · intro hfits
    obtain ⟨value, hrun, hvalue⟩ := hok hfits
    rw [hrun]
    exact ⟨f value, rfl, hf value hvalue⟩
  · intro hfits
    obtain ⟨fault, last, hrun⟩ := herror hfits
    rw [hrun]
    exact ⟨fault, last, rfl⟩

theorem Reads.map_eq {parser : Parser β} {f : β → α} {value : β}
    (hparser : Reads parser depth words follow fits (· = value)) (hfits : fits' ↔ fits) :
    Reads (parser >>= fun value => Pure.pure (f value)) depth words follow fits' (· = f value) := by
  have hf : ∀ result, result = value → f result = f value := fun _ => congrArg f
  exact (hparser.map hf).congr_fits hfits

theorem reads_ofExcept {result : Except Fault α} (hfits : fits)
    (hresult : ∃ value, result = .ok value ∧ P value) :
    Reads (ofExcept result) depth [] follow fits P := by
  obtain ⟨value, rfl, hvalue⟩ := hresult
  exact reads_pure hfits hvalue

/-! ## Tokens -/

section Tokens

theorem takeIf_bind_run {test : Token → Bool} {next : Option Token → Parser α} (cursor : Cursor) :
    (takeIf test >>= next) cursor =
      if test cursor.current then next (some cursor.current) cursor.advance
      else next none cursor := by
  rw [bind_run, takeIf_run]
  cases test cursor.current <;> rfl

/-- The word that comes is taken by a test that it passes. -/
theorem reads_takeIf {test : Token → Bool} {next : Option Token → Parser α}
    (htest : ∀ token : Token, token.word = word → test token = true)
    (hnext : ∀ token : Token, token.word = word →
      Reads (next (some token)) depth words follow fits P) :
    Reads (takeIf test >>= next) depth (word :: words) follow fits P := by
  intro cursor rest hdepth hpasses hfollow
  cases hpasses with
  | cons hword _ hrest =>
    rw [takeIf_bind_run, if_pos (htest _ hword)]
    exact hnext _ hword (hdepth ▸ cursor.depth_advance) hrest hfollow

/-- The word that comes is left by a test that it does not pass. -/
theorem declines_takeIf {test : Token → Bool} {next : Option Token → Parser α}
    (hahead : Ahead words follow fun word => ∀ token : Token, token.word = word → test token = false)
    (hnext : Reads (next none) depth words follow fits P) :
    Reads (takeIf test >>= next) depth words follow fits P := by
  intro cursor rest hdepth hpasses hfollow
  have htest := hahead.current hpasses hfollow _ rfl
  rw [takeIf_bind_run, if_neg (by simp [htest])]
  exact hnext hdepth hpasses hfollow

/-- What is done depends on the word that comes. -/
theorem reads_current {next : Token → Parser α} {R : Word → Prop} (hahead : Ahead words follow R)
    (hnext : ∀ token : Token, R token.word → Reads (next token) depth words follow fits P) :
    Reads (current >>= next) depth words follow fits P := by
  intro cursor rest hdepth hpasses hfollow
  exact hnext _ (hahead.current hpasses hfollow) hdepth hpasses hfollow

variable {kind : TokenKind} {next : Token → Parser α} {goOn : Bool → Parser α}

theorem reads_next (hnext : ∀ token : Token, token.word = word →
      Reads (next token) depth words follow fits P) :
    Reads (Parser.next >>= next) depth (word :: words) follow fits P := by
  intro cursor rest hdepth hpasses hfollow
  cases hpasses with
  | cons hword _ hrest =>
    rw [bind_run, next_run]
    exact hnext _ hword (hdepth ▸ cursor.depth_advance) hrest hfollow

theorem reads_expect (hkind : word.isA kind = true)
    (hnext : ∀ token : Token, token.word = word → Reads (next token) depth words follow fits P) :
    Reads (expect kind >>= next) depth (word :: words) follow fits P := by
  intro cursor rest hdepth hpasses hfollow
  cases hpasses with
  | cons hword _ hrest =>
    rw [← hword, Token.isA_word] at hkind
    rw [bind_run, expect_run, if_pos hkind]
    exact hnext _ hword (hdepth ▸ cursor.depth_advance) hrest hfollow

theorem reads_accept (hkind : word.isA kind = true)
    (hnext : Reads (goOn true) depth words follow fits P) :
    Reads (accept kind >>= goOn) depth (word :: words) follow fits P := by
  intro cursor rest hdepth hpasses hfollow
  cases hpasses with
  | cons hword _ hrest =>
    rw [← hword, Token.isA_word] at hkind
    rw [bind_run, accept_run, if_pos hkind]
    exact hnext (hdepth ▸ cursor.depth_advance) hrest hfollow

theorem declines_accept (hahead : Ahead words follow fun word => word.isA kind = false)
    (hnext : Reads (goOn false) depth words follow fits P) :
    Reads (accept kind >>= goOn) depth words follow fits P := by
  intro cursor rest hdepth hpasses hfollow
  have hkind := hahead.current hpasses hfollow
  rw [Token.isA_word] at hkind
  rw [bind_run, accept_run, if_neg (by simp [hkind])]
  exact hnext hdepth hpasses hfollow

theorem reads_acceptWord {text : String} (hword : word.isWord text = true)
    (hnext : Reads (goOn true) depth words follow fits P) :
    Reads (acceptWord text >>= goOn) depth (word :: words) follow fits P := by
  intro cursor rest hdepth hpasses hfollow
  cases hpasses with
  | cons hcurrent _ hrest =>
    rw [← hcurrent, Token.isWord_word] at hword
    rw [bind_run, acceptWord_run, if_pos hword]
    exact hnext (hdepth ▸ cursor.depth_advance) hrest hfollow

theorem declines_acceptWord {text : String}
    (hahead : Ahead words follow fun word => word.isWord text = false)
    (hnext : Reads (goOn false) depth words follow fits P) :
    Reads (acceptWord text >>= goOn) depth words follow fits P := by
  intro cursor rest hdepth hpasses hfollow
  have hword := hahead.current hpasses hfollow
  rw [Token.isWord_word] at hword
  rw [bind_run, acceptWord_run, if_neg (by simp [hword])]
  exact hnext hdepth hpasses hfollow

end Tokens

/-- A parser that opens a level fails where the limit is reached already. -/
theorem reads_nested {parser : Parser α} {limit : Nat}
    (hparser : depth < limit → Reads parser (depth + 1) words follow fits P) :
    Reads (nested limit parser) depth words follow (depth < limit ∧ fits) P := by
  intro cursor rest hdepth hpasses hfollow
  rw [Parser.nested]
  rw [hdepth]
  by_cases hlimit : limit ≤ depth
  · rw [if_pos hlimit]
    exact ⟨fun h => absurd h.1 (Nat.not_lt.mpr hlimit), fun _ => ⟨_, _, rfl⟩⟩
  · rw [if_neg hlimit]
    have hopened := hpasses.withDepth (depth + 1)
    obtain ⟨hok, herror⟩ := hparser (Nat.not_le.mp hlimit) rfl hopened hfollow
    constructor
    · intro h
      obtain ⟨value, hrun, hvalue⟩ := hok h.2
      rw [hrun]
      refine ⟨value, ?_, hvalue⟩
      have hrest : rest.depth = depth := hpasses.depth_eq.trans hdepth
      simp only [Nat.add_sub_cancel, ← hrest]
    · intro h
      obtain ⟨fault, last, hrun⟩ := herror fun h' => h ⟨Nat.not_le.mp hlimit, h'⟩
      rw [hrun]
      exact ⟨fault, _, rfl⟩

/-- It does not fail for that reason where the limit admits one level more. -/
theorem Reads.nested {parser : Parser α} {limit : Nat} (hlimit : depth < limit)
    (hparser : Reads parser (depth + 1) words follow fits P) :
    Reads (Parser.nested limit parser) depth words follow fits P :=
  (reads_nested fun _ => hparser).congr_fits (by simp [hlimit])

/-! ## Loops -/

section Loops

variable {state : σ} {step : σ → Parser (Option σ)} {rounds : Nat}

/-- A loop over so many words takes at most one round more than there are words. -/
theorem Reads.iterate {P : σ → Prop} (count : Nat) (hcount : count ≤ words.length + 1)
    (hloop : ∀ rounds, count ≤ rounds →
      Reads (iterateUpTo step rounds state) depth words follow fits P) :
    Reads (iterate step state) depth words follow fits P := by
  intro cursor rest hdepth hpasses hfollow
  have hrounds : count ≤ cursor.ahead.length + 1 :=
    Nat.le_trans hcount (Nat.succ_le_succ hpasses.length_le)
  exact hloop _ hrounds hdepth hpasses hfollow

theorem reads_iterateUpTo_stop {P : σ → Prop} (hfits : fits) (hstate : P state)
    (hstep : Reads (step state) depth [] follow True (· = none)) (rounds : Nat) :
    Reads (iterateUpTo step rounds state) depth [] follow fits P := by
  cases rounds with
  | zero => exact reads_pure hfits hstate
  | succ rounds =>
    intro cursor rest hdepth hpasses hfollow
    obtain ⟨hok, -⟩ := hstep hdepth hpasses hfollow
    obtain ⟨_, hrun, rfl⟩ := hok trivial
    refine ⟨fun _ => ⟨state, ?_, hstate⟩, fun h => absurd hfits h⟩
    rw [iterateUpTo, bind_run, hrun]
    rfl

theorem reads_iterateUpTo_step {P R : σ → Prop}
    (hstep : Reads (step state) depth first middle fits fun next? => ∃ next, next? = some next ∧ R next)
    (hahead : Ahead second follow middle)
    (hloop : ∀ next, R next →
      Reads (iterateUpTo step rounds next) depth second follow fits' P) :
    Reads (iterateUpTo step (rounds + 1) state) depth (first ++ second) follow (fits ∧ fits') P := by
  apply hstep.bind hahead
  intro next? hnext?
  obtain ⟨next, rfl, hnext⟩ := hnext?
  exact hloop next hnext

/-- An unfolding of so many words takes at most one round more than there are words. -/
theorem Reads.unfold {step : σ → Parser (α × Option σ)} {P : List α → Prop} (count : Nat)
    (hcount : count ≤ words.length + 1)
    (hloop : ∀ rounds, count ≤ rounds →
      Reads (unfoldUpTo step rounds state) depth words follow fits P) :
    Reads (unfold step state) depth words follow fits P := by
  intro cursor rest hdepth hpasses hfollow
  have hrounds : count ≤ cursor.ahead.length + 1 :=
    Nat.le_trans hcount (Nat.succ_le_succ hpasses.length_le)
  exact hloop _ hrounds hdepth hpasses hfollow

theorem reads_unfoldUpTo_last {step : σ → Parser (α × Option σ)} {P : List α → Prop}
    (hstep : Reads (step state) depth words follow fits fun result => result.2 = none ∧ P [result.1])
    (rounds : Nat) : Reads (unfoldUpTo step (rounds + 1) state) depth words follow fits P := by
  intro cursor rest hdepth hpasses hfollow
  obtain ⟨hok, herror⟩ := hstep hdepth hpasses hfollow
  rw [unfoldUpTo, bind_run]
  constructor
  · intro hfits
    obtain ⟨⟨value, _⟩, hrun, rfl, hvalue⟩ := hok hfits
    rw [hrun]
    exact ⟨[value], rfl, hvalue⟩
  · intro hfits
    obtain ⟨fault, last, hrun⟩ := herror hfits
    rw [hrun]
    exact ⟨fault, last, rfl⟩

/-- A list goes on behind an item that says from where. -/
theorem reads_unfoldUpTo_more {step : σ → Parser (α × Option σ)} {P : List α → Prop}
    {R : α → Prop} {S : σ → Prop}
    (hstep : Reads (step state) depth first middle fits fun result =>
      (∃ next, result.2 = some next ∧ S next) ∧ R result.1)
    (hahead : Ahead second follow middle)
    (hloop : ∀ next value, S next → R value →
      Reads (unfoldUpTo step rounds next) depth second follow fits' fun values =>
        P (value :: values)) :
    Reads (unfoldUpTo step (rounds + 1) state) depth (first ++ second) follow (fits ∧ fits') P := by
  apply hstep.bind hahead
  intro result hresult
  obtain ⟨value, _⟩ := result
  obtain ⟨⟨next, rfl, hnext⟩, hvalue⟩ := hresult
  exact (hloop next value hnext hvalue).map fun values hvalues => hvalues

end Loops

theorem length_le_joined (separator : Word) (texts : List (List Word)) :
    texts.length ≤ (Word.joined separator texts).length + 1 := by
  induction texts with
  | nil => simp
  | cons words texts ih =>
    cases texts with
    | nil => simp
    | cons next texts =>
      rw [Word.joined_cons separator words (List.cons_ne_nil _ _)]
      simp only [List.length_cons, List.length_append, List.length_nil] at ih ⊢
      omega

theorem reads_item_last {item : Parser α} {kind : TokenKind}
    (hitem : Reads item depth words middle fits P) (hmiddle : ∀ word, follow word → middle word)
    (hfollow : ∀ word, follow word → word.isA kind = false) :
    Reads (do return (← item, if ← accept kind then some () else none)) depth words follow fits
      fun result : α × Option Unit => result.2 = none ∧ P result.1 := by
  apply hitem.bind_end hmiddle
  intro value hvalue
  exact declines_accept hfollow (reads_pure trivial ⟨rfl, hvalue⟩)

theorem reads_item_more {item : Parser α} {kind : TokenKind} {separator : Word}
    (hitem : Reads item depth words middle fits P) (hmiddle : middle separator)
    (hseparator : separator.isA kind = true) :
    Reads (do return (← item, if ← accept kind then some () else none)) depth
      (words ++ [separator]) (fun _ => True) fits
      fun result : α × Option Unit => (∃ next, result.2 = some next ∧ next = ()) ∧ P result.1 := by
  refine hitem.bind_rest hmiddle ?_
  intro value hvalue
  exact reads_accept hseparator (reads_pure trivial ⟨⟨(), rfl, rfl⟩, hvalue⟩)

/-- Items with separators between them, where the separator may follow an item too. -/
theorem Reads.separated {β : Type} {item : Parser α} {kind : TokenKind} (separator : Word)
    (hseparator : separator.isA kind = true)
    (hfollow : ∀ word, follow word → word.isA kind = false) {text : β → List Word}
    {itemFits : β → Prop} {R : β → α → Prop} {values : List β} (hne : values ≠ [])
    (hitems : ∀ value ∈ values, Reads item depth (text value)
      (fun word => word = separator ∨ follow word) (itemFits value) (R value)) :
    Reads (separated item kind) depth (Word.joined separator (values.map text)) follow
      (∀ value ∈ values, itemFits value) fun results => List.Forall₂ R values results := by
  refine Reads.unfold values.length
    (by simpa using length_le_joined separator (values.map text)) ?_
  induction values with
  | nil => exact absurd rfl hne
  | cons value values ih =>
    intro rounds hrounds
    obtain ⟨rounds, rfl⟩ := Nat.exists_eq_succ_of_ne_zero
      (Nat.ne_of_gt (Nat.lt_of_lt_of_le (Nat.succ_pos _) hrounds))
    obtain ⟨hvalue, hrest⟩ := List.forall_mem_cons.mp hitems
    cases values with
    | nil =>
      have hlast := (reads_item_last hvalue (fun _ h => .inr h) hfollow).imp
        fun result hresult => (⟨hresult.1, .cons hresult.2 .nil⟩ :
          result.2 = none ∧ List.Forall₂ R [value] [result.1])
      exact (reads_unfoldUpTo_last hlast rounds).congr_fits (by simp)
    | cons next values =>
      have hmore := reads_item_more hvalue (.inl rfl) hseparator
      have hloop := ih (List.cons_ne_nil next values) hrest rounds (Nat.le_of_succ_le_succ hrounds)
      rw [List.map_cons, Word.joined_cons separator _ (by simp)]
      refine Reads.congr_fits ?_ List.forall_mem_cons
      apply reads_unfoldUpTo_more hmore (ahead_true _ _)
      intro _ result _ hresult
      exact hloop.imp fun _ hresults => .cons hresult hresults

/-- Items that are read as themselves, with a separator between neighbours. -/
theorem Reads.separated_self {item : Parser α} {kind : TokenKind} (separator : Word)
    (hseparator : separator.isA kind = true)
    (hfollow : ∀ word, follow word → word.isA kind = false) {text : α → List Word}
    {itemFits : α → Prop} {values : List α} (hne : values ≠ [])
    (hitems : ∀ value ∈ values, Reads item depth (text value)
      (fun word => word = separator ∨ follow word) (itemFits value) (· = value)) :
    Reads (Parser.separated item kind) depth (Word.joined separator (values.map text)) follow
      (∀ value ∈ values, itemFits value) (· = values) := by
  apply (Reads.separated (R := fun value result => result = value) separator hseparator hfollow
    hne hitems).imp
  intro results hresults
  clear hne hitems
  induction hresults with
  | nil => rfl
  | cons hfirst _ ih => rw [hfirst, ih]

section Steps

variable {β : Type} {step : σ → Parser σ} {kind : TokenKind} {separator : Word}
  (hseparator : separator.isA kind = true) (hfollow : ∀ word, follow word → word.isA kind = false)
  {text : β → List Word} {itemFits : β → Prop} {I : List β → σ → Prop} {items : List β}
  (hsteps : ∀ before item behind state, items = before ++ item :: behind → I before state →
    Reads (step state) depth (text item) (fun word => word = separator ∨ follow word) (itemFits item)
      (I (before ++ [item])))

theorem length_le_flatMap (separator : Word) (text : β → List Word) (items : List β) :
    items.length ≤ (items.flatMap fun item => separator :: text item).length := by
  induction items with
  | nil => exact Nat.le_refl 0
  | cons item items ih =>
    rw [List.flatMap_cons, List.length_append, List.length_cons, List.length_cons]
    omega

/-- Behind an item stands the separator, or else what follows all of them. -/
theorem ahead_flatMap (separator : Word) (text : β → List Word) (items : List β)
    (follow : Word → Prop) :
    Ahead (items.flatMap fun item => separator :: text item) follow
      fun word => word = separator ∨ follow word := by
  cases items with
  | nil => exact fun _ hword => .inr hword
  | cons item items => exact .inl rfl

include hseparator hfollow hsteps

/-- Behind some of the items, the loop takes the others, each behind a separator. -/
theorem reads_iterateUpTo_behind {before behind : List β} {state : σ} {rounds : Nat}
    (hitems : items = before ++ behind) (hstate : I before state) (hrounds : behind.length ≤ rounds) :
    Reads (iterateUpTo (stepBehind? step kind) rounds state) depth
      (behind.flatMap fun item => separator :: text item) follow (∀ item ∈ behind, itemFits item)
      (I items) := by
  induction behind generalizing before state rounds with
  | nil =>
    rw [List.append_nil] at hitems
    subst hitems
    apply reads_iterateUpTo_stop (List.forall_mem_nil _) hstate
    exact declines_accept hfollow (reads_pure trivial rfl)
  | cons item behind ih =>
    obtain ⟨rounds, rfl⟩ := Nat.exists_eq_add_of_le' hrounds
    have hitem : Reads (stepBehind? step kind state) depth (separator :: text item)
        (fun word => word = separator ∨ follow word) (itemFits item)
        fun next? => ∃ next, next? = some next ∧ I (before ++ [item]) next := by
      apply reads_accept hseparator
      apply (hsteps before item behind state hitems hstate).map
      intro next hnext
      exact ⟨next, rfl, hnext⟩
    rw [List.append_cons] at hitems
    rw [List.flatMap_cons]
    refine Reads.congr_fits ?_ List.forall_mem_cons
    apply reads_iterateUpTo_step hitem (ahead_flatMap separator text behind follow)
    intro next hnext
    exact ih hitems hnext (Nat.le_add_left _ _)

/-- Steps with separators between them, where the separator may follow a step too.  Each step takes the
state on by one item. -/
theorem Reads.separatedFrom {state : σ} (hne : items ≠ []) (hstart : I [] state) :
    Reads (separatedFrom step kind state) depth (Word.joined separator (items.map text)) follow
      (∀ item ∈ items, itemFits item) (I items) := by
  obtain ⟨first, behind, hitems⟩ := List.exists_cons_of_ne_nil hne
  have hwords : Word.joined separator (items.map text) =
      text first ++ behind.flatMap fun item => separator :: text item := by
    rw [hitems, List.map_cons]
    have haround := Word.joined_around separator [] (text first) (behind.map text)
    rwa [List.flatMap_nil, List.nil_append, List.nil_append, List.flatMap_map] at haround
  have hfits : (∀ item ∈ items, itemFits item) ↔
      itemFits first ∧ ∀ item ∈ behind, itemFits item := by
    rw [hitems]
    exact List.forall_mem_cons
  rw [hwords]
  refine Reads.congr_fits ?_ hfits
  apply (hsteps [] first behind state hitems hstart).bind (ahead_flatMap separator text behind follow)
  intro next hnext
  have hcount := Nat.le_succ_of_le (length_le_flatMap separator text behind)
  apply Reads.iterate behind.length hcount
  intro rounds hrounds
  exact reads_iterateUpTo_behind hseparator hfollow hsteps hitems hnext hrounds

end Steps

/-! ## Operators -/

section Operators

variable {β : Type} {meaning : β} {meanings : List β}

theorem reads_oneOfWords (text : β → String) (hmem : meaning ∈ meanings)
    (hdistinct : ∀ other ∈ meanings, text other = text meaning → other = meaning) :
    Reads (oneOfWords text meanings) depth [.identifier (text meaning)] follow True
      (· = some meaning) := by
  induction meanings with
  | nil => cases hmem
  | cons other meanings ih =>
    obtain ⟨hother, hrest⟩ := List.forall_mem_cons.mp hdistinct
    by_cases hsame : text other = text meaning
    · obtain rfl := hother hsame
      exact reads_acceptWord (by simp [Word.identifier, Word.isWord]) (reads_pure trivial rfl)
    · have hmem' : meaning ∈ meanings := by
        rcases List.mem_cons.mp hmem with rfl | hmem
        · exact absurd rfl hsame
        · exact hmem
      have hother : (Word.identifier (text meaning)).isWord (text other) = false := by
        simp [Word.identifier, Word.isWord, Ne.symm hsame]
      exact declines_acceptWord hother (ih hmem' hrest)

theorem declines_oneOfWords (text : β → String)
    (hfollow : ∀ word, follow word → ∀ meaning ∈ meanings, word.isWord (text meaning) = false) :
    Reads (oneOfWords text meanings) depth [] follow True (· = none) := by
  induction meanings with
  | nil => exact reads_pure trivial rfl
  | cons meaning meanings ih =>
    refine declines_acceptWord (fun word hword => hfollow word hword meaning List.mem_cons_self) ?_
    exact ih fun word hword other hmem => hfollow word hword other (List.mem_cons_of_mem _ hmem)

variable {operand : Parser α} {operator? : Parser (Option β)} {combine : β → α → α → Except Fault α}

/-- An operand that no operator follows. -/
theorem Reads.chain_single (hoperand : Reads operand depth words middle fits P)
    (hmiddle : ∀ word, follow word → middle word)
    (hnone : Reads operator? depth [] follow True (· = none)) :
    Reads (chain operand operator? combine) depth words follow fits P := by
  apply hoperand.bind_end hmiddle
  intro value hvalue
  apply Reads.iterate 0 (Nat.zero_le _)
  intro rounds _
  refine reads_iterateUpTo_stop trivial hvalue (hnone.bind_end (fun _ h => h) ?_) rounds
  rintro _ rfl
  exact reads_pure trivial rfl

/-- Two operands with an operator between them. -/
theorem Reads.chain_pair {operator : β} {R : α → Prop} {leftFollow rightFollow : Word → Prop}
    (hleft : Reads operand depth first leftFollow fits P) (hword : leftFollow word)
    (hoperator : Reads operator? depth [word] middle True (· = some operator))
    (hahead : Ahead second follow middle)
    (hright : Reads operand depth second rightFollow fits' R)
    (hfollow : ∀ word, follow word → rightFollow word)
    (hcombine : ∀ left right, P left → R right →
      ∃ value, combine operator left right = .ok value ∧ Q value)
    (hnone : Reads operator? depth [] follow True (· = none)) :
    Reads (chain operand operator? combine) depth (first ++ word :: second) follow
      (fits ∧ fits') Q := by
  apply hleft.bind (by exact hword)
  intro left hl
  apply Reads.iterate 1 (by simp)
  intro rounds hrounds
  obtain ⟨rounds, rfl⟩ := Nat.exists_eq_add_of_le' hrounds
  apply Reads.bind_end (P := fun next? => ∃ value, next? = some value ∧ Q value) ?_ (fun _ h => h)
  · rintro _ ⟨value, rfl, hvalue⟩
    refine reads_iterateUpTo_stop trivial hvalue (hnone.bind_end (fun _ h => h) ?_) rounds
    rintro _ rfl
    exact reads_pure trivial rfl
  · change Reads _ depth ([word] ++ second) _ _ _
    apply hoperator.bind_sure hahead
    rintro _ rfl
    apply hright.bind_end hfollow
    intro right hr
    exact (reads_ofExcept trivial (hcombine left right hl hr)).map fun value hvalue =>
      ⟨value, rfl, hvalue⟩

end Operators

end ODataOptions.Parser

namespace ODataOptions

/-! ## Ends of values -/

/-- The value of an option ends before the word. -/
def Word.EndsValue (word : Word) : Prop :=
  word.kind ∈ [TokenKind.semicolon, .closeParen, .endOfInput]

theorem Word.EndsValue.kind_ne {word : Word} (hends : word.EndsValue) (kind : TokenKind)
    (hother : kind ∉ [TokenKind.semicolon, .closeParen, .endOfInput]) : word.kind ≠ kind := by
  rintro rfl
  exact hother hends

theorem Word.EndsValue.of_endOfInput {token : Token} (hend : token.kind = .endOfInput) :
    token.word.EndsValue := by
  rw [EndsValue, Token.word_kind, hend]
  decide

/-- An item in a list of values ends before the word. -/
def Word.EndsItem (word : Word) : Prop := word = .comma ∨ word.EndsValue

theorem Word.EndsItem.kind_ne {word : Word} (hends : word.EndsItem) (kind : TokenKind)
    (hother : kind ∉ [TokenKind.comma, .semicolon, .closeParen, .endOfInput]) : word.kind ≠ kind := by
  simp only [List.mem_cons, not_or] at hother
  rcases hends with rfl | hends
  · exact fun hkind => hother.1 hkind.symm
  · exact hends.kind_ne kind (by simpa using hother.2)

end ODataOptions
