/-!
# Spans of text

Tokens, faults and labels point into a text by byte offsets of its UTF-8 form.
-/

namespace ODataOptions

/-- A half-open range of byte offsets. -/
structure Span where
  start : Nat
  stop : Nat
deriving DecidableEq, Repr, Inhabited

namespace Span

def point (offset : Nat) : Span := ⟨offset, offset⟩

def ofLength (length : Nat) : Span := ⟨0, length⟩

def cover (first last : Span) : Span := ⟨first.start, last.stop⟩

/-- The span cut down to a text of `length` bytes.  An end before the start is raised to it. -/
def clamp (length : Nat) (span : Span) : Span :=
  let start := min span.start length
  ⟨start, max (min span.stop length) start⟩

def size (span : Span) : Nat := span.stop - span.start

/-- A span in order that lies within the text is not changed. -/
theorem clamp_eq_self {length : Nat} {span : Span} (horder : span.start ≤ span.stop)
    (hinside : span.stop ≤ length) : span.clamp length = span := by
  cases span
  simp only [clamp, mk.injEq] at *
  omega

end Span

end ODataOptions
