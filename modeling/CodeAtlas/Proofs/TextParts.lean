import CodeAtlas.Text.Blank
import CodeAtlas.Text.Split
import Mathlib.Data.List.TakeWhile
import Mathlib.Tactic.ByContra

/-!
Parts of a text: its pieces between separators, the cut at a mark, and the text without its ends.
Pieces and cuts are described for texts that are put together from parts. What stands at either end
of a text and would be trimmed away makes no difference to the trimmed text.
-/
namespace CodeAtlas.Text

theorem intercalate_concat {α : Type} (sep : α) {parts : List (List α)} (filled : parts ≠ [])
    (last : List α) : [sep].intercalate (parts ++ [last]) = [sep].intercalate parts ++ sep :: last := by
  induction parts with
  | nil => exact absurd rfl filled
  | cons first rest ih =>
    cases rest with
    | nil => simp [List.intercalate]
    | cons second others =>
      rw [List.cons_append, List.cons_append, List.intercalate_cons_cons, List.intercalate_cons_cons,
        ← List.cons_append, ih (List.cons_ne_nil second others)]
      simp

section Cuts
variable {α : Type} [DecidableEq α] {sep : α} {s t front : List α}

theorem pieces_append (h : sep ∉ front) {p : List α} {ps : List (List α)}
    (rest : pieces sep s = p :: ps) : pieces sep (front ++ s) = (front ++ p) :: ps := by
  induction front with
  | nil => exact rest
  | cons a front ih =>
    rw [List.mem_cons, not_or] at h
    rw [List.cons_append, pieces, if_neg (Ne.symm h.1), ih h.2]
    rfl

theorem pieces_of_notMem (h : sep ∉ s) : pieces sep s = [s] := by
  have whole := pieces_append (s := []) h rfl
  rwa [List.append_nil] at whole

theorem pieces_append_sep (sep : α) (s t : List α) :
    pieces sep (s ++ sep :: t) = pieces sep s ++ pieces sep t := by
  induction s with
  | nil => simp [pieces]
  | cons a s ih =>
    rw [List.cons_append, pieces, pieces, ih]
    split
    · rw [List.cons_append]
    · obtain ⟨p, ps, split⟩ := List.exists_cons_of_ne_nil (pieces_ne_nil sep s)
      rw [split, List.cons_append, List.cons_append]

theorem pieces_intercalate {parts : List (List α)} (free : ∀ part ∈ parts, sep ∉ part)
    (filled : parts ≠ []) : pieces sep ([sep].intercalate parts) = parts := by
  induction parts with
  | nil => exact absurd rfl filled
  | cons first rest ih =>
    have head := free first List.mem_cons_self
    cases rest with
    | nil => rw [List.intercalate_singleton, pieces_of_notMem head]
    | cons second others =>
      have tail : ∀ part ∈ second :: others, sep ∉ part := by
        intro part member
        exact free part (List.mem_cons_of_mem first member)
      rw [List.intercalate_cons_cons, List.append_assoc, List.singleton_append, pieces_append_sep,
        pieces_of_notMem head, ih tail (List.cons_ne_nil second others)]
      rfl

theorem notMem_of_mem_pieces {p : List α} (h : p ∈ pieces sep s) : sep ∉ p := by
  induction s generalizing p with
  | nil =>
    rw [List.mem_singleton.1 h]
    exact List.not_mem_nil
  | cons a s ih =>
    rw [pieces] at h
    split at h
    · rcases List.mem_cons.1 h with rfl | later
      · exact List.not_mem_nil
      · exact ih later
    · next differs =>
      obtain ⟨first, others, split⟩ := List.exists_cons_of_ne_nil (pieces_ne_nil sep s)
      simp only [split] at h
      rcases List.mem_cons.1 h with rfl | later
      · rw [List.mem_cons, not_or]
        exact ⟨Ne.symm differs, ih (split ▸ List.mem_cons_self)⟩
      · exact ih (split ▸ List.mem_cons_of_mem _ later)

theorem cutFirst?_eq_none (h : sep ∉ s) : cutFirst? sep s = none := by
  induction s with
  | nil => rfl
  | cons a s ih =>
    rw [List.mem_cons, not_or] at h
    rw [cutFirst?, if_neg (Ne.symm h.1), ih h.2]
    rfl

theorem cutLast?_eq_some_iff : cutLast? sep s = some (front, t) ↔ sep ∉ t ∧ s = front ++ sep :: t := by
  rw [cutLast?, Option.map_eq_some_iff]
  constructor
  · rintro ⟨⟨after, before⟩, found, same⟩
    obtain ⟨rfl, rfl⟩ := Prod.mk.inj same
    obtain ⟨free, whole⟩ := cutFirst?_eq_some_iff.1 found
    exact ⟨by simpa using free, by simpa using congrArg List.reverse whole⟩
  · rintro ⟨free, rfl⟩
    refine ⟨(t.reverse, front.reverse), cutFirst?_eq_some_iff.2 ?_, by simp⟩
    exact ⟨by simpa using free, by simp⟩

variable {mark : List α}

theorem after?_append (mark s : List α) : after? mark (mark ++ s) = some s :=
  after?_eq_some_iff.2 rfl

theorem after?_isSome_iff : (after? mark s).isSome ↔ mark <+: s := by
  rw [Option.isSome_iff_exists]
  constructor
  · rintro ⟨t, found⟩
    exact ⟨t, (after?_eq_some_iff.1 found).symm⟩
  · rintro ⟨t, rfl⟩
    exact ⟨t, after?_append mark t⟩

theorem cutAt?_isSome_iff (filled : mark ≠ []) : (cutAt? mark s).isSome ↔ mark <:+: s := by
  induction s with
  | nil => simp [cutAt?, filled]
  | cons a s ih =>
    rw [cutAt?, List.infix_cons_iff, ← after?_isSome_iff, ← ih]
    cases after? mark (a :: s) <;> simp

theorem cutAt?_append (filled : mark ≠ []) (t : List α)
    (first : ∀ u v, s = u ++ v → v ≠ [] → ¬ mark <+: v ++ (mark ++ t)) :
    cutAt? mark (s ++ (mark ++ t)) = some (s, t) := by
  induction s with
  | nil =>
    obtain ⟨a, rest, rfl⟩ := List.exists_cons_of_ne_nil filled
    have found : after? (a :: rest) (a :: (rest ++ t)) = some t := after?_append (a :: rest) t
    rw [List.nil_append, List.cons_append, cutAt?, found]
  | cons a s ih =>
    have not : after? mark (a :: (s ++ (mark ++ t))) = none := by
      rw [← Option.not_isSome_iff_eq_none, after?_isSome_iff]
      exact first [] (a :: s) rfl (List.cons_ne_nil a s)
    have later : cutAt? mark (s ++ (mark ++ t)) = some (s, t) := by
      apply ih
      intro u v split
      exact first (a :: u) v (congrArg (a :: ·) split)
    rw [List.cons_append, cutAt?, not, later]
    rfl

end Cuts

section Trimming
variable {p q : Char → Bool} {s front back : List Char}

theorem trimBy_append_left (h : ∀ c ∈ front, p c) : trimBy p (front ++ s) = trimBy p s := by
  unfold trimBy
  rw [List.dropWhile_append_of_pos h]

theorem trimBy_append_right (h : ∀ c ∈ back, p c) : trimBy p (s ++ back) = trimBy p s := by
  unfold trimBy
  rw [List.dropWhile_append]
  split
  · next none =>
    rw [List.isEmpty_iff.1 none, List.dropWhile_eq_nil_iff.2 h]
  · rw [List.reverse_append, List.dropWhile_append_of_pos]
    intro c member
    exact h c (List.mem_reverse.1 member)

theorem trimBy_split (p : Char → Bool) (s : List Char) :
    ∃ front back, s = front ++ trimBy p s ++ back ∧ (∀ c ∈ front, p c) ∧ ∀ c ∈ back, p c := by
  let rest := (s.dropWhile p).reverse
  refine ⟨s.takeWhile p, (rest.takeWhile p).reverse, ?_, ?_, ?_⟩
  · have ends : (rest.dropWhile p).reverse ++ (rest.takeWhile p).reverse = s.dropWhile p := by
      rw [← List.reverse_append, List.takeWhile_append_dropWhile, List.reverse_reverse]
    rw [List.append_assoc, trimBy, ends, List.takeWhile_append_dropWhile]
  · intro c member
    exact List.mem_takeWhile_imp member
  · intro c member
    exact List.mem_takeWhile_imp (List.mem_reverse.1 member)

theorem trimBy_trimBy (weaker : ∀ c, p c → q c) (s : List Char) :
    trimBy q (trimBy p s) = trimBy q s := by
  obtain ⟨front, back, split, before, after⟩ := trimBy_split p s
  have first : ∀ c ∈ front, q c := fun c member => weaker c (before c member)
  have last : ∀ c ∈ back, q c := fun c member => weaker c (after c member)
  conv => rhs; rw [split, trimBy_append_right last, trimBy_append_left first]

end Trimming
end CodeAtlas.Text
