import CodeAtlas.Proofs.TextParts

/-!
Texts that differ only in their blanks. Replacing runs of blanks by others changes neither the words
of a text nor, next to dots, the trimmed pieces between them.
-/
namespace CodeAtlas.Text

/-- The texts are the same but for blanks at places where both have some. -/
inductive Respaced : List Char → List Char → Prop where
  | nil : Respaced [] []
  | char (c : Char) {s t : List Char} : Respaced s t → Respaced (c :: s) (c :: t)
  | gap {a b s t : List Char} : a ≠ [] → b ≠ [] → (∀ c ∈ a, isBlank c) → (∀ c ∈ b, isBlank c) →
      Respaced s t → Respaced (a ++ s) (b ++ t)

namespace Respaced
variable {s t u v : List Char}

theorem refl (s : List Char) : Respaced s s := by
  induction s with
  | nil => exact .nil
  | cons c s ih => exact .char c ih

theorem append (first : Respaced s t) (second : Respaced u v) : Respaced (s ++ u) (t ++ v) := by
  induction first with
  | nil => exact second
  | char c _ ih => exact .char c ih
  | gap fa fb ba bb _ ih =>
    rw [List.append_assoc, List.append_assoc]
    exact .gap fa fb ba bb ih

end Respaced

section Words
variable {s t : List Char}

def opensWord : List Char → Bool
  | [] => false
  | c :: _ => !isBlank c

theorem words_blank {c : Char} (h : isBlank c) (s : List Char) : words (c :: s) = words s := by
  rw [words.eq_def]
  exact if_pos h

theorem words_gap {gap : List Char} (h : ∀ c ∈ gap, isBlank c) (s : List Char) :
    words (gap ++ s) = words s := by
  induction gap with
  | nil => rfl
  | cons c gap ih =>
    rw [List.cons_append, words_blank (h c List.mem_cons_self)]
    exact ih fun d member => h d (List.mem_cons_of_mem c member)

theorem words_cons {c : Char} (h : isBlank c = false) (s : List Char) :
    words (c :: s) =
      if opensWord s then
        match words s with
        | [] => [[c]]
        | w :: ws => (c :: w) :: ws
      else [c] :: words s := by
  rw [words.eq_def]
  dsimp only
  rw [if_neg (by simp [h])]
  cases s with
  | nil => rfl
  | cons d s =>
    cases blank : isBlank d with
    | true => simp [opensWord, blank]
    | false =>
      cases words (d :: s) <;> simp [opensWord, blank]

theorem opensWord_gap {gap : List Char} (filled : gap ≠ []) (h : ∀ c ∈ gap, isBlank c)
    (s : List Char) : opensWord (gap ++ s) = false := by
  obtain ⟨c, rest, rfl⟩ := List.exists_cons_of_ne_nil filled
  rw [List.cons_append, opensWord, h c List.mem_cons_self]
  rfl

theorem Respaced.words_eq (h : Respaced s t) : words s = words t := by
  have both : opensWord s = opensWord t ∧ words s = words t := by
    induction h with
    | nil => exact ⟨rfl, rfl⟩
    | @char c s t _ ih =>
      refine ⟨rfl, ?_⟩
      cases blank : isBlank c with
      | true => rw [words_blank blank, words_blank blank, ih.2]
      | false => rw [words_cons blank, words_cons blank, ih.1, ih.2]
    | gap fa fb ba bb _ ih =>
      rw [opensWord_gap fa ba, opensWord_gap fb bb, words_gap ba, words_gap bb]
      exact ⟨rfl, ih.2⟩
  exact both.2

theorem Respaced.collapse_eq (h : Respaced s t) : collapse s = collapse t := by
  unfold collapse
  rw [h.words_eq]

end Words

section Segments
variable {gap : List Char}

theorem dot_notMem_gap (h : ∀ c ∈ gap, isBlank c) : '.' ∉ gap := by
  intro member
  exact absurd (h '.' member) (by decide)

theorem trim_pieces_gap (h : ∀ c ∈ gap, isBlank c) (s : List Char) :
    (pieces '.' (gap ++ s)).map trim = (pieces '.' s).map trim := by
  cases found : pieces '.' s with
  | nil => exact absurd found (pieces_ne_nil '.' s)
  | cons p ps =>
    rw [pieces_append (dot_notMem_gap h) found, List.map_cons, List.map_cons]
    unfold trim
    rw [trimBy_append_left h]

theorem trim_pieces_dot {name before after : List Char} (whole : '.' ∉ name)
    (hb : ∀ c ∈ before, isBlank c) (ha : ∀ c ∈ after, isBlank c) (s : List Char) :
    (pieces '.' (name ++ before ++ '.' :: (after ++ s))).map trim =
      trim name :: (pieces '.' s).map trim := by
  have free : '.' ∉ name ++ before := by
    rw [List.mem_append, not_or]
    exact ⟨whole, dot_notMem_gap hb⟩
  rw [pieces_append_sep, List.map_append, trim_pieces_gap ha, pieces_of_notMem free]
  unfold trim
  rw [List.map_singleton, trimBy_append_right hb]
  rfl

end Segments
end CodeAtlas.Text
