/-!
# Source positions

A span is a byte range of one source file. It is carried from the method tree into the errors that
name a construct.
-/

namespace MethodCompiler

/-- The bytes from `start` up to `stop` of the file numbered `file`. -/
structure Span where
  file : UInt16
  start : UInt32
  stop : UInt32
  deriving DecidableEq, Repr, Inhabited

namespace Span

/-- The span of a construct without a known position. -/
def none : Span := ⟨0, 0, 0⟩

/-- A span that starts and stops at zero names no position, whatever its file. -/
def isNone (s : Span) : Bool := s.start == 0 && s.stop == 0

/-- The smallest range around both spans, in the file of the first. -/
def merge (s t : Span) : Span := ⟨s.file, min s.start t.start, max s.stop t.stop⟩

end Span

end MethodCompiler
