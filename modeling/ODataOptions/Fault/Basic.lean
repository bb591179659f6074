import ODataOptions.Fault.Problem

/-!
# Faults

A problem together with the place in the text where it was found.
-/

namespace ODataOptions

/-- A problem and its place.  A second place may have contributed to it. -/
structure Fault where
  problem : Problem
  span : Span
  related : Option (Span × String) := none
deriving DecidableEq

namespace Fault

def key (fault : Fault) : FaultKey := fault.problem.key

def message (fault : Fault) : String := fault.problem.message

def parameters (fault : Fault) : List String := fault.problem.parameters

/-- The message with the class of the fault before it. -/
def display (fault : Fault) : String :=
  fault.key.faultClass.name ++ " error: " ++ fault.message

def withRelated (fault : Fault) (span : Span) (note : String) : Fault :=
  { fault with related := some (span, note) }

end Fault

end ODataOptions
