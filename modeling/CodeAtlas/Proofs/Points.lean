import CodeAtlas.Position.SourceText

/-!
Points grow with offsets: going on in a text never goes back in line or column, whatever ends the
lines and whether or not an offset falls inside a character.
-/
namespace CodeAtlas

namespace Point

theorem le_refl (a : Point) : a ≤ a := Or.inr ⟨rfl, Nat.le_refl _⟩

theorem le_trans {a b c : Point} (first : a ≤ b) (second : b ≤ c) : a ≤ c := by
  change a.line < b.line ∨ a.line = b.line ∧ a.column ≤ b.column at first
  change b.line < c.line ∨ b.line = c.line ∧ b.column ≤ c.column at second
  change a.line < c.line ∨ a.line = c.line ∧ a.column ≤ c.column
  omega

end Point

namespace SourceText

theorem le_advance (p : Point) (c : Char) (rest : List Char) : p ≤ advance p c rest := by
  unfold advance
  split
  · exact Or.inl (Nat.lt_succ_self _)
  · exact Or.inr ⟨rfl, Nat.le_add_right _ _⟩

theorem le_pointFrom (p : Point) (chars : List Char) (offset : Nat) :
    p ≤ pointFrom p chars offset := by
  induction chars generalizing p offset with
  | nil => exact Point.le_refl p
  | cons c rest ih =>
    rw [pointFrom]
    split
    · exact Point.le_refl p
    · exact Point.le_trans (le_advance p c rest) (ih _ _)

theorem pointFrom_mono (p : Point) (chars : List Char) {a b : Nat} (h : a ≤ b) :
    pointFrom p chars a ≤ pointFrom p chars b := by
  induction chars generalizing p a b with
  | nil => exact Point.le_refl p
  | cons c rest ih =>
    by_cases start : a = 0
    · subst start
      exact le_pointFrom p (c :: rest) b
    -- both offsets go past `c`, also when one of them falls inside it
    · have later : b ≠ 0 := by omega
      rw [pointFrom, pointFrom, if_neg start, if_neg later]
      exact ih _ (by omega)

theorem pointAt_mono (text : SourceText) {a b : Nat} (h : a ≤ b) :
    text.pointAt a ≤ text.pointAt b := pointFrom_mono _ _ h

def isBoundary (text : SourceText) (offset : Nat) : Bool := (dropBytes? offset text.chars).isSome

theorem dropBytes?_add {m : Nat} {s rest : List Char} (n : Nat) (h : dropBytes? m s = some rest) :
    dropBytes? (m + n) s = dropBytes? n rest := by
  fun_induction dropBytes? m s with
  | case1 s =>
    obtain rfl := Option.some.inj h
    rw [Nat.zero_add]
  | case2 => simp at h
  | case3 m c tail fits ih =>
    have more : c.utf8Size ≤ m + n + 1 := by omega
    have left : m + n + 1 - c.utf8Size = m + 1 - c.utf8Size + n := by omega
    rw [show m + 1 + n = m + n + 1 by omega, dropBytes?, if_pos more, left]
    exact ih h
  | case4 => simp at h

end SourceText

namespace Range

theorem contains_iff {r : Range} {p : Point} : r.contains p ↔ r.start ≤ p ∧ p ≤ r.stop := by
  simp [contains]

def Encloses (outer inner : Range) : Prop := outer.contains inner.start ∧ outer.contains inner.stop

end Range

namespace Span

def Within (inner outer : Span) : Prop := outer.start ≤ inner.start ∧ inner.stop ≤ outer.stop

instance (inner outer : Span) : Decidable (Within inner outer) :=
  inferInstanceAs (Decidable (outer.start ≤ inner.start ∧ inner.stop ≤ outer.stop))

theorem Within.trans {a b c : Span} (inner : a.Within b) (outer : b.Within c) : a.Within c :=
  ⟨Nat.le_trans outer.1 inner.1, Nat.le_trans inner.2 outer.2⟩

theorem cover_within {a b outer : Span} (ha : a.Within outer) (hb : b.Within outer) :
    (cover a b).Within outer := by
  unfold Within cover at *
  dsimp only
  omega

theorem foldl_cover_within {spans : List Span} {first outer : Span} (h : first.Within outer)
    (each : ∀ s ∈ spans, s.Within outer) : (spans.foldl cover first).Within outer := by
  induction spans generalizing first with
  | nil => exact h
  | cons s rest ih =>
    rw [List.foldl_cons]
    apply ih (cover_within h (each s List.mem_cons_self))
    intro t member
    exact each t (List.mem_cons_of_mem _ member)

theorem coverAll?_within {spans : List Span} {covered outer : Span}
    (each : ∀ s ∈ spans, s.Within outer) (h : coverAll? spans = some covered) :
    covered.Within outer := by
  cases spans with
  | nil => simp [coverAll?] at h
  | cons s rest =>
    rw [coverAll?, Option.some.injEq] at h
    rw [← h]
    apply foldl_cover_within (each s List.mem_cons_self)
    intro t member
    exact each t (List.mem_cons_of_mem _ member)

end Span
end CodeAtlas
