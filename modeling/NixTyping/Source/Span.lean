/-!
Spans: where something stands in the source, in bytes.
-/

namespace NixTyping

/-- From the first byte to the one after the last. -/
structure Span where
  start : Nat
  stop : Nat
  deriving DecidableEq, Repr, Inhabited

namespace Span

/-- From the beginning of one span to the end of another. -/
def upTo (a b : Span) : Span := ⟨a.start, b.stop⟩

def text (s : Span) : String := s!"{s.start}..{s.stop}"

/-- The characters that begin at the bytes of a span, where the first begins at byte `pos`. -/
def sliceFrom (s : Span) (pos : Nat) : List Char → List Char
  | [] => []
  | c :: cs =>
    if s.start ≤ pos && pos < s.stop then c :: sliceFrom s (pos + c.utf8Size) cs
    else sliceFrom s (pos + c.utf8Size) cs

/-- The part of a text that a span covers. -/
def slice (s : Span) (text : String) : String := String.ofList (s.sliceFrom 0 text.toList)

def size (s : Span) : Nat := s.stop - s.start

end Span

end NixTyping
