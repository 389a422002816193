/-!
# Spans

A span is a stretch of a text, given by the byte offsets of its ends in the text's UTF-8 form.
-/

namespace StyleBundle

/-- The bytes from `start` up to `stop`. -/
structure Span where
  start : Nat
  stop : Nat
  deriving DecidableEq, Repr, Inhabited

namespace Span

/-- The span of what was never written down. -/
def none : Span := ⟨0, 0⟩

def length (s : Span) : Nat :=
  s.stop - s.start

/-- The span of the same stretch after `n` bytes were put in front of the text. -/
def shift (n : Nat) (s : Span) : Span :=
  ⟨s.start + n, s.stop + n⟩

end Span

end StyleBundle
