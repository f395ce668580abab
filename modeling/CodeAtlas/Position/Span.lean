/-!
Spans of byte offsets into a text.
-/
namespace CodeAtlas

structure Span where
  start : Nat
  stop : Nat
  deriving DecidableEq, Repr, Inhabited

namespace Span

/-- A span that ends before it starts is empty too. -/
def isEmpty (s : Span) : Bool := s.stop ≤ s.start

def cover (a b : Span) : Span := ⟨min a.start b.start, max a.stop b.stop⟩

def coverAll? : List Span → Option Span
  | [] => none
  | s :: rest => some (rest.foldl cover s)

end Span
end CodeAtlas
