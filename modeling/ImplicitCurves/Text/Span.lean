/-!
# Spans

A span is a range of byte offsets of the text that the user typed.
-/

namespace ImplicitCurves

/-- The bytes from `start` up to, and without, `stop`. -/
structure Span where
  start : Nat
  stop : Nat
deriving DecidableEq, Repr

namespace Span

/-- The span moved `offset` bytes to the right. -/
def shift (s : Span) (offset : Nat) : Span :=
  ⟨s.start + offset, s.stop + offset⟩

end Span

end ImplicitCurves
