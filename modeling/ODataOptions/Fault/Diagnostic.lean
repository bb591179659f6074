import ODataOptions.Fault.Basic

/-!
# Diagnostics

A fault is shown to a reader as a message with labels in the text.  The labels of a report are cut
down to the text that is shown, so a place behind its end is shown at its end.
-/

namespace ODataOptions

/-- A note at a place in the text. -/
structure Label where
  /-- Whether this is the place of the fault itself, rather than one that contributed to it. -/
  primary : Bool
  span : Span
  text : String
deriving DecidableEq, Repr, Inhabited

/-- A message with labels, and perhaps a code and advice. -/
structure Diagnostic where
  message : String
  labels : List Label := []
  help : Option String := none
  code : Option String := none
deriving DecidableEq, Repr, Inhabited

namespace Diagnostic

/-- The labels as they are shown over a text. -/
def labelsOver (diagnostic : Diagnostic) (source : String) : List Label :=
  diagnostic.labels.map fun label =>
    { label with span := label.span.clamp source.utf8ByteSize }

end Diagnostic

namespace Fault

def help? (fault : Fault) : Option String :=
  if fault.key = .grammar then
    some ("allowed options are $count, $expand, $filter, $levels, $orderby, $search, $select, " ++
      "$skip and $top")
  else none

def diagnostic (fault : Fault) : Diagnostic where
  message := fault.message
  labels :=
    ⟨true, fault.span, "here"⟩ ::
      fault.related.toList.map fun (span, note) => ⟨false, span, note⟩
  help := fault.help?
  code := some fault.key.code

end Fault

end ODataOptions
