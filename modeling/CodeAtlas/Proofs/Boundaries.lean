import CodeAtlas.Proofs.Points
import Mathlib.Order.Bounds.Defs

/-!
Character boundaries of a text. An offset stands for the least boundary that is not below it, and
the points of two offsets are ordered as these boundaries are, so no two boundaries share a point.
-/
namespace CodeAtlas
namespace SourceText

def lengthBy (size : Char → Nat) : List Char → Nat
  | [] => 0
  | c :: s => size c + lengthBy size s

theorem lengthBy_append (size : Char → Nat) (s t : List Char) :
    lengthBy size (s ++ t) = lengthBy size s + lengthBy size t := by
  induction s with
  | nil => exact (Nat.zero_add _).symm
  | cons c s ih => rw [List.cons_append, lengthBy, lengthBy, ih, Nat.add_assoc]

def byteLength (s : List Char) : Nat := lengthBy Char.utf8Size s

def unitLength (s : List Char) : Nat := lengthBy units s

@[simp]
theorem byteLength_nil : byteLength [] = 0 := rfl

@[simp]
theorem byteLength_cons (c : Char) (s : List Char) :
    byteLength (c :: s) = c.utf8Size + byteLength s := rfl

@[simp]
theorem byteLength_append (s t : List Char) :
    byteLength (s ++ t) = byteLength s + byteLength t :=
  lengthBy_append _ s t

@[simp]
theorem unitLength_nil : unitLength [] = 0 := rfl

@[simp]
theorem unitLength_cons (c : Char) (s : List Char) :
    unitLength (c :: s) = units c + unitLength s := rfl

@[simp]
theorem unitLength_append (s t : List Char) :
    unitLength (s ++ t) = unitLength s + unitLength t :=
  lengthBy_append _ s t

theorem dropBytes?_byteLength (front back : List Char) :
    dropBytes? (byteLength front) (front ++ back) = some back := by
  induction front with
  | nil => rw [byteLength_nil, List.nil_append, dropBytes?]
  | cons c front ih =>
    have first : dropBytes? c.utf8Size (c :: (front ++ back)) = some (front ++ back) := by
      obtain ⟨n, size⟩ := Nat.exists_eq_succ_of_ne_zero (Nat.ne_of_gt c.utf8Size_pos)
      rw [size, dropBytes?, if_pos (by omega), size, Nat.sub_self, dropBytes?]
    rw [byteLength_cons, List.cons_append, dropBytes?_add _ first]
    exact ih

theorem append_of_dropBytes? {n : Nat} {s back : List Char} (h : dropBytes? n s = some back) :
    ∃ front, s = front ++ back ∧ byteLength front = n := by
  fun_induction dropBytes? n s with
  | case1 s =>
    obtain rfl := Option.some.inj h
    exact ⟨[], rfl, rfl⟩
  | case2 => simp at h
  | case3 n c rest fits ih =>
    obtain ⟨front, rfl, length⟩ := ih h
    refine ⟨c :: front, rfl, ?_⟩
    rw [byteLength_cons, length]
    omega
  | case4 => simp at h

theorem takeBytes?_byteLength (front back : List Char) :
    takeBytes? (byteLength front) (front ++ back) = some front := by
  induction front with
  | nil => rw [byteLength_nil, takeBytes?]
  | cons c front ih =>
    obtain ⟨n, length⟩ : ∃ n, byteLength (c :: front) = n + 1 :=
      ⟨_, (Nat.succ_pred (by have := c.utf8Size_pos; rw [byteLength_cons]; omega)).symm⟩
    have left : n + 1 - c.utf8Size = byteLength front := by
      rw [byteLength_cons] at length
      omega
    have fits : c.utf8Size ≤ n + 1 := by
      rw [byteLength_cons] at length
      omega
    rw [length, List.cons_append, takeBytes?, if_pos fits, left, ih, Option.map_some]

theorem isBoundary_iff {text : SourceText} {n : Nat} :
    text.isBoundary n ↔ ∃ front back, text.chars = front ++ back ∧ byteLength front = n := by
  rw [isBoundary, Option.isSome_iff_exists]
  constructor
  · rintro ⟨back, found⟩
    obtain ⟨front, split, length⟩ := append_of_dropBytes? found
    exact ⟨front, back, split, length⟩
  · rintro ⟨front, back, split, rfl⟩
    rw [split]
    exact ⟨back, dropBytes?_byteLength front back⟩

/-- The first boundary at or after an offset; past the end it is the end. -/
def boundaryFrom : List Char → Nat → Nat
  | [], _ => 0
  | c :: rest, offset =>
    if offset = 0 then 0 else c.utf8Size + boundaryFrom rest (offset - c.utf8Size)

def boundary (text : SourceText) (offset : Nat) : Nat := boundaryFrom text.chars offset

theorem boundaryFrom_split (chars : List Char) (offset : Nat) :
    ∃ front back, chars = front ++ back ∧ byteLength front = boundaryFrom chars offset := by
  fun_induction boundaryFrom chars offset with
  | case1 => exact ⟨[], [], rfl, rfl⟩
  | case2 c rest => exact ⟨[], c :: rest, rfl, rfl⟩
  | case3 c rest offset _ ih =>
    obtain ⟨front, back, rfl, length⟩ := ih
    exact ⟨c :: front, back, rfl, by rw [byteLength_cons, length]⟩

theorem le_boundaryFrom (chars : List Char) (offset : Nat) :
    min offset (byteLength chars) ≤ boundaryFrom chars offset := by
  fun_induction boundaryFrom chars offset with
  | case1 => simp
  | case2 => simp
  | case3 c rest offset _ ih =>
    rw [byteLength_cons]
    omega

theorem boundaryFrom_le {front back : List Char} {offset : Nat}
    (h : min offset (byteLength (front ++ back)) ≤ byteLength front) :
    boundaryFrom (front ++ back) offset ≤ byteLength front := by
  induction front generalizing offset with
  | nil =>
    cases back with
    | nil => simp [boundaryFrom]
    | cons c back =>
      have := c.utf8Size_pos
      have start : offset = 0 := by
        simp only [List.nil_append, byteLength_cons, byteLength_nil] at h
        omega
      simp [boundaryFrom, start]
  | cons c front ih =>
    rw [List.cons_append, boundaryFrom]
    split
    · exact Nat.zero_le _
    · rw [byteLength_cons]
      apply Nat.add_le_add_left
      apply ih
      simp only [List.cons_append, byteLength_cons, byteLength_append] at h ⊢
      omega

theorem isLeast_boundary (text : SourceText) (offset : Nat) :
    IsLeast {n | text.isBoundary n ∧ min offset (byteLength text.chars) ≤ n}
      (text.boundary offset) := by
  constructor
  · obtain ⟨front, back, split, length⟩ := boundaryFrom_split text.chars offset
    exact ⟨isBoundary_iff.2 ⟨front, back, split, length⟩, le_boundaryFrom text.chars offset⟩
  · rintro n ⟨bound, reaches⟩
    obtain ⟨front, back, split, rfl⟩ := isBoundary_iff.1 bound
    rw [split] at reaches
    rw [boundary, split]
    exact boundaryFrom_le reaches

theorem boundary_of_isBoundary {text : SourceText} {n : Nat} (h : text.isBoundary n) :
    text.boundary n = n := by
  obtain ⟨front, back, split, length⟩ := isBoundary_iff.1 h
  have whole : byteLength text.chars = n + byteLength back := by
    rw [split, byteLength_append, length]
  have least := isLeast_boundary text n
  have above : n ≤ text.boundary n := by
    have := least.1.2
    omega
  have below : text.boundary n ≤ n := least.2 ⟨h, Nat.min_le_left _ _⟩
  omega

theorem not_advance_le (p : Point) (c : Char) (rest : List Char) : ¬ advance p c rest ≤ p := by
  change ¬ ((advance p c rest).line < p.line ∨
    (advance p c rest).line = p.line ∧ (advance p c rest).column ≤ p.column)
  unfold advance units
  split
  · simp only
    omega
  · simp only
    split <;> omega

theorem pointFrom_eq_of_boundaryFrom (p : Point) (chars : List Char) {a b : Nat}
    (h : boundaryFrom chars a = boundaryFrom chars b) :
    pointFrom p chars a = pointFrom p chars b := by
  induction chars generalizing p a b with
  | nil => rfl
  | cons c rest ih =>
    have := c.utf8Size_pos
    rw [boundaryFrom, boundaryFrom] at h
    rw [pointFrom, pointFrom]
    split at h <;> split at h
    · rw [if_pos ‹_›, if_pos ‹_›]
    · omega
    · omega
    · rw [if_neg ‹_›, if_neg ‹_›]
      exact ih _ (by omega)

theorem boundaryFrom_le_of_pointFrom (p : Point) (chars : List Char) {a b : Nat}
    (h : pointFrom p chars a ≤ pointFrom p chars b) :
    boundaryFrom chars a ≤ boundaryFrom chars b := by
  induction chars generalizing p a b with
  | nil => exact Nat.le_refl _
  | cons c rest ih =>
    by_cases start : a = 0
    · rw [boundaryFrom, if_pos start]
      exact Nat.zero_le _
    · by_cases stop : b = 0
      -- the first point is past `c` and the second one before it
      · rw [pointFrom, pointFrom, if_neg start, if_pos stop] at h
        exact absurd (Point.le_trans (le_pointFrom _ _ _) h) (not_advance_le p c rest)
      · rw [pointFrom, pointFrom, if_neg start, if_neg stop] at h
        rw [boundaryFrom, boundaryFrom, if_neg start, if_neg stop]
        exact Nat.add_le_add_left (ih _ h) _

theorem pointAt_boundary (text : SourceText) (offset : Nat) :
    text.pointAt (text.boundary offset) = text.pointAt offset := by
  apply pointFrom_eq_of_boundaryFrom
  exact boundary_of_isBoundary (isLeast_boundary text offset).1.1

theorem pointAt_le_iff (text : SourceText) (a b : Nat) :
    text.pointAt a ≤ text.pointAt b ↔ text.boundary a ≤ text.boundary b := by
  constructor
  · exact boundaryFrom_le_of_pointFrom _ _
  · intro h
    rw [← pointAt_boundary text a, ← pointAt_boundary text b]
    exact pointAt_mono text h

@[simp]
theorem pointFrom_zero (p : Point) (chars : List Char) : pointFrom p chars 0 = p := by
  cases chars <;> simp [pointFrom]

theorem pointFrom_snoc (p : Point) (front : List Char) (c : Char) (back : List Char) :
    pointFrom p (front ++ c :: back) (byteLength front + c.utf8Size) =
      advance (pointFrom p (front ++ c :: back) (byteLength front)) c back := by
  have size := c.utf8Size_pos
  induction front generalizing p with
  | nil =>
    rw [List.nil_append, byteLength_nil, Nat.zero_add, pointFrom_zero, pointFrom,
      if_neg (by omega), Nat.sub_self, pointFrom_zero]
  | cons d front ih =>
    have first := d.utf8Size_pos
    rw [List.cons_append, byteLength_cons, pointFrom, pointFrom, if_neg (by omega),
      if_neg (by omega), Nat.add_assoc, Nat.add_sub_cancel_left, Nat.add_sub_cancel_left]
    exact ih _

/-- An offset inside a character stands for the end of that character. -/
theorem pointFrom_inside (p : Point) (front : List Char) (c : Char) (back : List Char) {n : Nat}
    (pos : 0 < n) (upTo : n ≤ c.utf8Size) :
    pointFrom p (front ++ c :: back) (byteLength front + n) =
      pointFrom p (front ++ c :: back) (byteLength front + c.utf8Size) := by
  induction front generalizing p with
  | nil =>
    have left : n - c.utf8Size = 0 := by omega
    rw [List.nil_append, byteLength_nil, pointFrom, pointFrom, if_neg (by omega),
      if_neg (by omega), Nat.zero_add, Nat.zero_add, left, Nat.sub_self]
  | cons d front ih =>
    have first := d.utf8Size_pos
    rw [List.cons_append, byteLength_cons, pointFrom, pointFrom, if_neg (by omega),
      if_neg (by omega), Nat.add_assoc, Nat.add_assoc, Nat.add_sub_cancel_left,
      Nat.add_sub_cancel_left]
    exact ih _

theorem pointAt_snoc {text : SourceText} {front back : List Char} {c : Char}
    (split : text.chars = front ++ c :: back) :
    text.pointAt (byteLength (front ++ [c])) =
      advance (text.pointAt (byteLength front)) c back := by
  rw [byteLength_append, byteLength_cons, byteLength_nil, Nat.add_zero, pointAt, pointAt, split]
  exact pointFrom_snoc _ _ _ _

end SourceText

namespace Point

theorem isLE_compare_iff (a b : Point) : (compare a b).isLE ↔ a ≤ b := by
  change (order a b).isLE ↔ a.line < b.line ∨ a.line = b.line ∧ a.column ≤ b.column
  rw [order, Ordering.isLE_then_iff_or, Nat.compare_eq_lt, Nat.compare_eq_eq, Nat.isLE_compare]

end Point

namespace Range

/-- A range leaves out the lines before and after it, what stands before its start on the first
line, and what stands after its end on the last one. -/
theorem contains_eq_false_iff (r : Range) (p : Point) :
    r.contains p = false ↔ p.line < r.start.line ∨ r.stop.line < p.line ∨
      (p.line = r.start.line ∧ p.column < r.start.column) ∨
      (p.line = r.stop.line ∧ r.stop.column < p.column) := by
  rw [← Bool.not_eq_true, contains_iff]
  change ¬ ((r.start.line < p.line ∨ r.start.line = p.line ∧ r.start.column ≤ p.column) ∧
    (p.line < r.stop.line ∨ p.line = r.stop.line ∧ p.column ≤ r.stop.column)) ↔ _
  omega

end Range

namespace SourceText

/-- Spans of offsets and ranges of points order the same way: every offset counts as the least
boundary not below it, and boundaries are ordered as their points. -/
theorem points_order_as_boundaries (text : SourceText) :
    (∀ offset, IsLeast {n | text.isBoundary n ∧ min offset (byteLength text.chars) ≤ n}
      (text.boundary offset)) ∧
    (∀ a b, text.pointAt a ≤ text.pointAt b ↔ text.boundary a ≤ text.boundary b) ∧
    (∀ a b, text.isBoundary a → text.isBoundary b → text.pointAt a = text.pointAt b → a = b) ∧
    (∀ span : Span, span.start ≤ span.stop →
      (text.rangeOf span).start ≤ (text.rangeOf span).stop) ∧
    (∀ (span : Span) offset, (text.rangeOf span).contains (text.pointAt offset) ↔
      text.boundary span.start ≤ text.boundary offset ∧
        text.boundary offset ≤ text.boundary span.stop) ∧
    (∀ (r : Range) (p : Point), r.contains p = false ↔
      p.line < r.start.line ∨ r.stop.line < p.line ∨
        (p.line = r.start.line ∧ p.column < r.start.column) ∨
        (p.line = r.stop.line ∧ r.stop.column < p.column)) ∧
    ∀ p q : Point, (compare p q).isLE ↔ p ≤ q := by
  refine ⟨isLeast_boundary text, pointAt_le_iff text, ?_, ?_, ?_, Range.contains_eq_false_iff,
    Point.isLE_compare_iff⟩
  · intro a b first second same
    have below := (pointAt_le_iff text a b).1 (same ▸ Point.le_refl _)
    have above := (pointAt_le_iff text b a).1 (same ▸ Point.le_refl _)
    rw [boundary_of_isBoundary first, boundary_of_isBoundary second] at below above
    omega
  · intro span ordered
    exact pointAt_mono text ordered
  · intro span offset
    rw [Range.contains_iff, rangeOf, pointAt_le_iff, pointAt_le_iff]

def accentAndClef : SourceText := ⟨['é', '\r', '\n', '𝄞']⟩

theorem accentAndClef_range_contains :
    accentAndClef.isBoundary 3 ∧ accentAndClef.isBoundary 4 ∧
      accentAndClef.pointAt 3 ≠ accentAndClef.pointAt 4 ∧
      (accentAndClef.rangeOf ⟨1, 5⟩).start ≤ (accentAndClef.rangeOf ⟨1, 5⟩).stop ∧
      (accentAndClef.rangeOf ⟨1, 5⟩).contains (accentAndClef.pointAt 99) := by
  obtain ⟨_, _, distinct, ordered, contains, _⟩ := points_order_as_boundaries accentAndClef
  refine ⟨by decide, by decide, ?_, ordered ⟨1, 5⟩ (by decide), ?_⟩
  · intro same
    exact absurd (distinct 3 4 (by decide) (by decide) same) (by decide)
  · exact (contains ⟨1, 5⟩ 99).2 (by decide)

end SourceText
end CodeAtlas
