/-!
# Spans

A span is a stretch of a source text, given by the offsets of its bytes: from `start`,
included, to `stop`, not included.
-/

namespace PoolScript

/-- The bytes of a text from `start` up to `stop`. -/
structure Span where
  start : Nat
  stop : Nat
deriving DecidableEq, Repr, Inhabited

namespace Span

/-- The least stretch that covers both spans and what lies between them. -/
def merge (a b : Span) : Span :=
  ⟨min a.start b.start, max a.stop b.stop⟩

/-- The span as text, `start..stop`. -/
def text (s : Span) : String :=
  s!"{s.start}..{s.stop}"

end Span

end PoolScript
