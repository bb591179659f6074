import ODataOptions.Proofs.Expand.Mirrors
import ODataOptions.Proofs.SystemOption.Enclosed
import ODataOptions.Proofs.Token.Delimited

/-!
# Lists of items

The values of `$expand`, `$select` and `$orderby` are lists of items with commas between them.  An item
ends before a comma as it does at the end of the input, whatever its own last part is, and leaves no level
open for the next one.  So two texts with a comma between them are the items of the one and then those of
the other.
-/

namespace ODataOptions

open ODataOptions.Parser

namespace Parser

variable {α : Type} {item : Parser α}

/-- Where a list would end, a separator may stand instead, and behind it another list. -/
theorem separated_append {separator : TokenKind} (hitem : Mirrors .item id item item)
    (hseparator : separator ≠ .endOfInput) {cursor stop cursor' middle last : Cursor}
    {words : List Word} {items more : List α} (halike : stop.EndsAlike middle)
    (hwords : cursor.Passes words stop) (hwords' : cursor'.Passes words middle)
    (hitems : separated item separator cursor = .ok items stop)
    (hfound : middle.current.isA separator = true)
    (hmore : separated item separator middle.advance = .ok more last) :
    separated item separator cursor' = .ok (items ++ more) last := by
  have hmoves : Moves (separated item separator) := by
    apply moves_unfold
    intro _
    apply hitem.moves.bind
    intro _
    exact (moves_accept separator).map _
  induction items generalizing cursor cursor' words with
  | nil =>
    obtain ⟨_, _, _, hhead⟩ := head?_unfold hitems
    cases hhead
  | cons first items ih =>
    rw [separated_run hitem.moves hseparator] at hitems
    cases hrun : item cursor with
    | error fault behind =>
      rw [hrun] at hitems
      cases hitems
    | ok value behind =>
      rw [hrun] at hitems
      dsimp only at hitems
      rw [separated_run hitem.moves hseparator]
      split at hitems
      · -- the separator behind the item is there in the longer list too
        next hbehind =>
        obtain ⟨others, _, hothers, hlist⟩ := bind_eq_ok_iff.mp hitems
        cases hlist
        have hkind := Token.kind_ne_endOfInput_of_isA hseparator hbehind
        obtain ⟨rest, hrest⟩ := hmoves.passes hothers
        have hreach : behind.Passes (behind.current.word :: rest) stop := .cons rfl hkind hrest
        obtain ⟨value', behind', hrun', hvalue, hreach'⟩ :=
          hitem.follows halike hwords hwords' hrun hreach fun _ => halike.toEndAt
        have hbehind' : behind'.current.isA separator = true :=
          (hreach'.isA_current separator).trans hbehind
        have htail := ih hrest hreach'.advance hothers
        obtain rfl : first = value' := hvalue
        rw [hrun']
        dsimp only
        rw [if_pos hbehind', bind_run, htail]
        rfl
      · cases hitems
        obtain ⟨value', behind', hrun', hvalue, hreach'⟩ :=
          hitem.follows halike hwords hwords' hrun (.nil stop) fun _ => halike.toEndAt
        obtain rfl : first = value' := hvalue
        rw [hrun', hreach'.eq_of_nil]
        dsimp only
        rw [if_pos hfound, bind_run, hmore]
        rfl

/-- Two texts that the parser accepts are accepted with a comma between them, as the items of the first one
and then those of the second one. -/
def Concatenates (option : OptionKind) (parser : Parser (List α)) : Prop :=
  ∀ ⦃first second items more⦄, (complete option parser).onText first = .ok items →
    (complete option parser).onText second = .ok more →
      (complete option parser).onText (first ++ "," ++ second) = .ok (items ++ more)

/-- Lists with commas may be joined by another comma, if no item looks beyond one. -/
theorem concatenates_separated (hitem : Mirrors .item id item item) (option : OptionKind) :
    Concatenates option (separated item .comma) := by
  intro first second items more hfirst hsecond
  have hlist : Mirrors .value id (separated item .comma) (separated item .comma) :=
    (hitem.narrow (by decide)).separated_id (by decide) (by decide)
  obtain ⟨hfaultless, rest, hitems⟩ := onText_eq_ok_iff.mp hfirst
  obtain ⟨hitems, hrest⟩ := complete_eq_ok_iff.mp hitems
  obtain ⟨words, hwords⟩ := exists_writes hfaultless
  obtain ⟨others, hothers⟩ := exists_writes (onText_eq_ok_iff.mp hsecond).1
  have hboth := ((hwords.append_opens delimits_comma opens_comma).append_writes hothers).written
  obtain ⟨stop, hpasses, hstop⟩ := hwords.written.exists_passes
  obtain ⟨last, hpasses', hlast⟩ := hboth.exists_passes
  obtain ⟨start, hbefore, hbehind⟩ := hpasses'.append
  obtain ⟨middle, hbefore, hcomma⟩ := hbefore.append
  obtain ⟨_, hreach⟩ := hlist.moves.passes hitems
  rw [hreach.end_unique hpasses hrest hstop] at hitems
  rw [← hcomma.advance.eq_of_nil] at hbehind
  have halike : stop.EndsAlike middle := by
    refine ⟨⟨?_, ?_⟩, hpasses.depth_eq.trans hbefore.depth_eq.symm⟩
    · exact List.mem_cons_of_mem _ (Word.EndsValue.of_endOfInput hstop)
    · rw [hcomma.current_word]
      exact List.mem_cons_self
  have hfound : middle.current.isA .comma = true := hcomma.isA_current _
  have hdepth : middle.advance.depth = 0 := (Cursor.depth_advance middle).trans hbefore.depth_eq
  have hreads := (hlist.onText_eq_ok_iff_reads hothers.written).mp hsecond
  obtain ⟨_, hmore, rfl⟩ :=
    (hreads hdepth hbehind (Word.EndsValue.of_endOfInput hlast)).1 trivial
  have hrun := separated_append hitem (by decide) halike hpasses hbefore hitems hfound hmore
  exact onText_eq_ok_iff.mpr ⟨hboth.tokens.1, last, complete_eq_ok_iff.mpr ⟨hrun, hlast⟩⟩

end Parser

theorem Expand.concatenates_parse (scope : Scope) (owner : StructuredType) :
    Concatenates .expand (Expand.parse scope owner) := by
  rw [Expand.parse]
  cases scope.limits.expandDepth with
  | zero =>
    intro first second items more hfirst
    obtain ⟨_, _, hrun⟩ := onText_eq_ok_iff.mp hfirst
    cases hrun
  | succ levels =>
    exact concatenates_separated
      (ExpandItem.mirrors_parse (Expand.mirrors_parseWithin scope levels) owner) _

/-- The options whose values are lists take a comma between two values for what it is within one. -/
theorem SystemOption.concatenates_lists (scope : Scope) (owner : StructuredType) :
    Concatenates .expand (Expand.parse scope owner) ∧
      Concatenates .select (Select.parse scope.schema owner) ∧
      Concatenates .orderBy (OrderBy.parse scope owner) :=
  ⟨Expand.concatenates_parse scope owner,
    concatenates_separated (SelectItem.mirrors_parse owner) _,
    concatenates_separated (OrderByItem.mirrors_parse scope owner) _⟩

theorem SystemOption.concatenates_lists_shop :
    (∃ items more,
      (complete .expand (Expand.parse { schema := .shop } .shopCustomer)).onText
          "Orders/Shop.UrgentOrder($orderby=Total desc,Total;$top=2)" = .ok items ∧
      (complete .expand (Expand.parse { schema := .shop } .shopCustomer)).onText
          "Address/Region,Orders" = .ok more ∧
      (complete .expand (Expand.parse { schema := .shop } .shopCustomer)).onText
          ("Orders/Shop.UrgentOrder($orderby=Total desc,Total;$top=2)" ++ "," ++ "Address/Region,Orders") =
        .ok (items ++ more)) ∧
    (∃ items more,
      (complete .select (Select.parse .shop .shopCustomer)).onText "Address" = .ok items ∧
      (complete .select (Select.parse .shop .shopCustomer)).onText "Name,*" = .ok more ∧
      (complete .select (Select.parse .shop .shopCustomer)).onText ("Address" ++ "," ++ "Name,*") =
        .ok (items ++ more)) ∧
    ∃ items more,
      (complete .orderBy (OrderBy.parse { schema := .shop } .shopCustomer)).onText "Age desc" =
        .ok items ∧
      (complete .orderBy (OrderBy.parse { schema := .shop } .shopCustomer)).onText
          "length(Name) asc" = .ok more ∧
      (complete .orderBy (OrderBy.parse { schema := .shop } .shopCustomer)).onText
          ("Age desc" ++ "," ++ "length(Name) asc") = .ok (items ++ more) := by
  obtain ⟨hexpand, hselect, horderBy⟩ := concatenates_lists { schema := .shop } .shopCustomer
  refine ⟨?_, ?_, ?_⟩
  · obtain ⟨items, hitems⟩ := Fault.exists_ok_of_isOk (by decide +kernel :
      ((complete .expand (Expand.parse { schema := .shop } .shopCustomer)).onText
        "Orders/Shop.UrgentOrder($orderby=Total desc,Total;$top=2)").isOk = true)
    obtain ⟨more, hmore⟩ := Fault.exists_ok_of_isOk (by decide +kernel :
      ((complete .expand (Expand.parse { schema := .shop } .shopCustomer)).onText
        "Address/Region,Orders").isOk = true)
    exact ⟨items, more, hitems, hmore, hexpand hitems hmore⟩
  · obtain ⟨items, hitems⟩ := Fault.exists_ok_of_isOk (by decide +kernel :
      ((complete .select (Select.parse .shop .shopCustomer)).onText "Address").isOk = true)
    obtain ⟨more, hmore⟩ := Fault.exists_ok_of_isOk (by decide +kernel :
      ((complete .select (Select.parse .shop .shopCustomer)).onText "Name,*").isOk = true)
    exact ⟨items, more, hitems, hmore, hselect hitems hmore⟩
  · obtain ⟨items, hitems⟩ := Fault.exists_ok_of_isOk (by decide +kernel :
      ((complete .orderBy (OrderBy.parse { schema := .shop } .shopCustomer)).onText
        "Age desc").isOk = true)
    obtain ⟨more, hmore⟩ := Fault.exists_ok_of_isOk (by decide +kernel :
      ((complete .orderBy (OrderBy.parse { schema := .shop } .shopCustomer)).onText
        "length(Name) asc").isOk = true)
    exact ⟨items, more, hitems, hmore, horderBy hitems hmore⟩

end ODataOptions
