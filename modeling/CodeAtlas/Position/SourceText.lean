import CodeAtlas.Position.Point
import CodeAtlas.Position.Span

/-!
The text of a document, addressed by byte offsets of its UTF-8 form. A line ends with a line
feed, with a carriage return and line feed, or with a carriage return alone. Columns count
UTF-16 units, and an offset inside a character stands for the end of that character.
-/
namespace CodeAtlas

structure SourceText where
  chars : List Char
  deriving DecidableEq, Repr, Inhabited

namespace SourceText

def ofString (s : String) : SourceText := ⟨s.toList⟩

def units (c : Char) : Nat := if c.toNat < 0x10000 then 1 else 2

def endsLine (c : Char) (rest : List Char) : Bool :=
  c == '\n' || (c == '\r' && rest.head? != some '\n')

/-- The point after the character `c`, which stands at `p` and before `rest`. -/
def advance (p : Point) (c : Char) (rest : List Char) : Point :=
  if endsLine c rest then ⟨p.line + 1, 0⟩ else ⟨p.line, p.column + units c⟩

/-- The point `offset` bytes further on, or the end of the text if that comes first. -/
def pointFrom (p : Point) : List Char → Nat → Point
  | [], _ => p
  | c :: rest, offset =>
    if offset = 0 then p else pointFrom (advance p c rest) rest (offset - c.utf8Size)

def pointAt (text : SourceText) (offset : Nat) : Point := pointFrom ⟨0, 0⟩ text.chars offset

def rangeOf (text : SourceText) (span : Span) : Range :=
  ⟨text.pointAt span.start, text.pointAt span.stop⟩

def lineBreaks : List Char → Nat
  | [] => 0
  | c :: rest => (if endsLine c rest then 1 else 0) + lineBreaks rest

/-- Text after the last line break is a line of its own, also when it is empty. -/
def lineCount (text : SourceText) : Nat := lineBreaks text.chars + 1

def dropBytes? : Nat → List Char → Option (List Char)
  | 0, s => some s
  | _ + 1, [] => none
  | n + 1, c :: rest =>
    if c.utf8Size ≤ n + 1 then dropBytes? (n + 1 - c.utf8Size) rest else none

def takeBytes? : Nat → List Char → Option (List Char)
  | 0, _ => some []
  | _ + 1, [] => none
  | n + 1, c :: rest =>
    if c.utf8Size ≤ n + 1 then (takeBytes? (n + 1 - c.utf8Size) rest).map (c :: ·) else none

/-- The characters of a span; none when an end of it falls inside a character. -/
def slice (text : SourceText) (span : Span) : List Char :=
  ((dropBytes? span.start text.chars).bind (takeBytes? (span.stop - span.start))).getD []

end SourceText
end CodeAtlas
