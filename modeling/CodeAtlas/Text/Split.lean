/-!
Cutting a list at a separator. A list always has one more piece than separators, so the pieces
joined by the separator give the list back.
-/
namespace CodeAtlas.Text

universe u

variable {α : Type u}

def pieces [DecidableEq α] (sep : α) : List α → List (List α)
  | [] => [[]]
  | a :: rest =>
    if a = sep then [] :: pieces sep rest
    else match pieces sep rest with
      | [] => [[a]]
      | p :: ps => (a :: p) :: ps

def cutFirst? [DecidableEq α] (sep : α) : List α → Option (List α × List α)
  | [] => none
  | a :: rest =>
    if a = sep then some ([], rest)
    else (cutFirst? sep rest).map fun (before, after) => (a :: before, after)

def cutLast? [DecidableEq α] (sep : α) (s : List α) : Option (List α × List α) :=
  (cutFirst? sep s.reverse).map fun (after, before) => (before.reverse, after.reverse)

def after? [DecidableEq α] : List α → List α → Option (List α)
  | [], s => some s
  | _ :: _, [] => none
  | a :: lead, b :: s => if a = b then after? lead s else none

def cutAt? [DecidableEq α] (mark : List α) : List α → Option (List α × List α)
  | [] => none
  | a :: rest =>
    match after? mark (a :: rest) with
    | some after => some ([], after)
    | none => (cutAt? mark rest).map fun (before, after) => (a :: before, after)

theorem pieces_ne_nil [DecidableEq α] (sep : α) (s : List α) : pieces sep s ≠ [] := by
  cases s with
  | nil => simp [pieces]
  | cons a rest =>
    rw [pieces]
    split
    · simp
    · split <;> simp

theorem intercalate_pieces [DecidableEq α] (sep : α) (s : List α) :
    [sep].intercalate (pieces sep s) = s := by
  induction s with
  | nil => rfl
  | cons a rest ih =>
    rw [pieces]
    split
    · next h =>
      subst h
      cases hp : pieces a rest with
      | nil => exact absurd hp (pieces_ne_nil a rest)
      | cons p ps => rw [hp] at ih; simpa [List.intercalate] using ih
    · cases hp : pieces sep rest with
      | nil => exact absurd hp (pieces_ne_nil sep rest)
      | cons p ps =>
        rw [hp] at ih
        cases ps with
        | nil => simpa [List.intercalate] using ih
        | cons q qs => simpa [List.intercalate] using ih

section Cuts
variable [DecidableEq α] {sep : α} {mark s t front : List α}

theorem cutFirst?_append (h : sep ∉ s) (t : List α) :
    cutFirst? sep (s ++ sep :: t) = some (s, t) := by
  induction s with
  | nil => rw [List.nil_append, cutFirst?, if_pos rfl]
  | cons a s ih =>
    rw [List.mem_cons, not_or] at h
    rw [List.cons_append, cutFirst?, if_neg (Ne.symm h.1), ih h.2]
    rfl

theorem cutFirst?_eq_some_iff :
    cutFirst? sep s = some (front, t) ↔ sep ∉ front ∧ s = front ++ sep :: t := by
  constructor
  · intro found
    induction s generalizing front with
    | nil => cases found
    | cons a s ih =>
      rw [cutFirst?] at found
      split at found
      · next same =>
        obtain ⟨rfl, rfl⟩ := Prod.mk.inj (Option.some.inj found)
        exact ⟨List.not_mem_nil, by rw [same]; rfl⟩
      · next differs =>
        obtain ⟨⟨before, after⟩, cut, same⟩ := Option.map_eq_some_iff.1 found
        obtain ⟨rfl, rfl⟩ := Prod.mk.inj same
        obtain ⟨free, rfl⟩ := ih cut
        exact ⟨by simp [free, Ne.symm differs], rfl⟩
  · rintro ⟨free, rfl⟩
    exact cutFirst?_append free t

theorem after?_eq_some_iff : after? mark s = some t ↔ s = mark ++ t := by
  induction mark generalizing s with
  | nil => rw [after?, Option.some.injEq, List.nil_append]
  | cons a mark ih =>
    cases s with
    | nil => simp [after?]
    | cons b s =>
      rw [after?, List.cons_append, List.cons.injEq]
      split
      · next same => simp [ih, same]
      · next differs => simp [Ne.symm differs]

theorem append_of_cutAt? {before after : List α} (h : cutAt? mark s = some (before, after)) :
    before ++ (mark ++ after) = s := by
  induction s generalizing before with
  | nil => cases h
  | cons a s ih =>
    rw [cutAt?] at h
    split at h
    · next found =>
      obtain ⟨rfl, rfl⟩ := Prod.mk.inj (Option.some.inj h)
      exact (after?_eq_some_iff.1 found).symm
    · obtain ⟨⟨before', after'⟩, found, same⟩ := Option.map_eq_some_iff.1 h
      obtain ⟨rfl, rfl⟩ := Prod.mk.inj same
      rw [List.cons_append, ih found]

theorem length_cutFirst? (h : cutFirst? sep s = some (front, t)) : t.length < s.length := by
  obtain ⟨_, rfl⟩ := cutFirst?_eq_some_iff.1 h
  rw [List.length_append, List.length_cons]
  omega

theorem length_after? (h : after? mark s = some t) : t.length ≤ s.length := by
  rw [after?_eq_some_iff.1 h, List.length_append]
  omega

end Cuts

theorem length_dropWhile_le (p : α → Bool) (s : List α) : (s.dropWhile p).length ≤ s.length :=
  (List.dropWhile_sublist p).length_le

end CodeAtlas.Text
