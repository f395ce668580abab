/-!
Points of a text as line and column, both counted from zero, and the ranges between them.
Points are ordered by line, then by column.
-/
namespace CodeAtlas

structure Point where
  line : Nat
  column : Nat
  deriving DecidableEq, Repr, Inhabited

namespace Point

def order (a b : Point) : Ordering :=
  (compare a.line b.line).then (compare a.column b.column)

instance : Ord Point := ⟨order⟩

instance : LE Point := ⟨fun a b => a.line < b.line ∨ a.line = b.line ∧ a.column ≤ b.column⟩

instance (a b : Point) : Decidable (a ≤ b) :=
  inferInstanceAs (Decidable (a.line < b.line ∨ a.line = b.line ∧ a.column ≤ b.column))

end Point

structure Range where
  start : Point
  stop : Point
  deriving DecidableEq, Repr, Inhabited

/-- Both ends belong to a range. -/
def Range.contains (r : Range) (p : Point) : Bool := r.start ≤ p && p ≤ r.stop

end CodeAtlas
