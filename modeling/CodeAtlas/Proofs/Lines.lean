import CodeAtlas.Proofs.LineIndex

/-!
Texts laid out in lines. Whatever separates the lines of a text, the point of a place in a line is
the number of the line and the number of UTF-16 units before the place, and every text has such a
layout. A line feed right after a lone carriage return would make one separator of the two, so a
layout has none.
-/
namespace CodeAtlas
open SourceText

inductive Separator where
  | lineFeed
  | returnFeed
  | loneReturn
  deriving DecidableEq, Repr

def Separator.chars : Separator → List Char
  | .lineFeed => ['\n']
  | .returnFeed => ['\r', '\n']
  | .loneReturn => ['\r']

def joined (ended : List (List Char × Separator)) : List Char :=
  ended.flatMap fun (line, separator) => line ++ separator.chars

/-- No line feed stands right after a lone carriage return, when `last` is the last line. -/
def Apart : List (List Char × Separator) → List Char → Prop
  | [], _ => True
  | (_, separator) :: rest, last =>
    (separator = .loneReturn → (joined rest ++ last).head? ≠ some '\n') ∧ Apart rest last

instance : (ended : List (List Char × Separator)) → (last : List Char) →
    Decidable (Apart ended last)
  | [], _ => isTrue trivial
  | (_, _) :: rest, last =>
    have := instDecidableApart rest last
    inferInstanceAs (Decidable (_ ∧ _))

def Unbroken (line : List Char) : Prop := '\r' ∉ line ∧ '\n' ∉ line

instance (line : List Char) : Decidable (Unbroken line) := inferInstanceAs (Decidable (_ ∧ _))

structure Lines where
  ended : List (List Char × Separator)
  last : List Char
  unbroken : ∀ line ∈ ended.map Prod.fst ++ [last], Unbroken line
  apart : Apart ended last

namespace Lines

def list (d : Lines) : List (List Char) := d.ended.map Prod.fst ++ [d.last]

def text (d : Lines) : SourceText := ⟨joined d.ended ++ d.last⟩

/-- The offset right after `front` at the start of the line `i`. -/
def offset (d : Lines) (i : Nat) (front : List Char) : Nat :=
  byteLength (joined (d.ended.take i) ++ front)

end Lines

theorem joined_cons (line : List Char) (separator : Separator)
    (rest : List (List Char × Separator)) :
    joined ((line, separator) :: rest) = line ++ separator.chars ++ joined rest := rfl

theorem joined_append (a b : List (List Char × Separator)) :
    joined (a ++ b) = joined a ++ joined b := List.flatMap_append

namespace SourceText
variable {text : SourceText} {front back : List Char}

theorem advance_within {p : Point} {c : Char} {rest : List Char} (h : endsLine c rest = false) :
    advance p c rest = ⟨p.line, p.column + units c⟩ := by
  simp [advance, h]

theorem advance_over {p : Point} {c : Char} {rest : List Char} (h : endsLine c rest) :
    advance p c rest = ⟨p.line + 1, 0⟩ := by
  simp [advance, h]

theorem pointAt_unbroken {line : List Char} (unbroken : Unbroken line)
    (split : text.chars = front ++ line ++ back) :
    text.pointAt (byteLength (front ++ line)) =
      ⟨(text.pointAt (byteLength front)).line,
        (text.pointAt (byteLength front)).column + unitLength line⟩ := by
  induction line generalizing front with
  | nil => simp
  | cons c line ih =>
    obtain ⟨noReturn, noFeed⟩ := unbroken
    rw [List.mem_cons, not_or] at noReturn noFeed
    have first : text.chars = front ++ c :: (line ++ back) := by simp [split]
    have others : text.chars = front ++ [c] ++ line ++ back := by simp [split]
    have inside : endsLine c (line ++ back) = false := by
      simp [endsLine, Ne.symm noReturn.1, Ne.symm noFeed.1]
    have point := ih ⟨noReturn.2, noFeed.2⟩ others
    rw [pointAt_snoc first, advance_within inside, List.append_assoc,
      List.singleton_append] at point
    rw [point, unitLength_cons, Nat.add_assoc]

theorem pointAt_separator {separator : Separator}
    (apart : separator = .loneReturn → back.head? ≠ some '\n')
    (split : text.chars = front ++ separator.chars ++ back) :
    text.pointAt (byteLength (front ++ separator.chars)) =
      ⟨(text.pointAt (byteLength front)).line + 1, 0⟩ := by
  cases separator with
  | lineFeed =>
    have first : text.chars = front ++ '\n' :: back := by simp [split, Separator.chars]
    rw [Separator.chars, pointAt_snoc first, advance_over (by simp [endsLine])]
  | loneReturn =>
    have first : text.chars = front ++ '\r' :: back := by simp [split, Separator.chars]
    rw [Separator.chars, pointAt_snoc first, advance_over (by simp [endsLine, apart rfl])]
  | returnFeed =>
    have first : text.chars = front ++ '\r' :: '\n' :: back := by simp [split, Separator.chars]
    have second : text.chars = front ++ ['\r'] ++ '\n' :: back := by simp [first]
    have pair : front ++ Separator.returnFeed.chars = front ++ ['\r'] ++ ['\n'] := by
      simp [Separator.chars]
    rw [pair, pointAt_snoc second, pointAt_snoc first, advance_over (by simp [endsLine]),
      advance_within (by simp [endsLine])]

theorem pointAt_joined {ended : List (List Char × Separator)} {n : Nat}
    (start : text.pointAt (byteLength front) = ⟨n, 0⟩)
    (split : text.chars = front ++ joined ended ++ back)
    (unbroken : ∀ line ∈ ended.map Prod.fst, Unbroken line) (apart : Apart ended back) {i : Nat}
    (within : i ≤ ended.length) :
    text.pointAt (byteLength (front ++ joined (ended.take i))) = ⟨n + i, 0⟩ := by
  induction ended generalizing front n i with
  | nil =>
    obtain rfl : i = 0 := by simpa using within
    simpa [joined] using start
  | cons first rest ih =>
    obtain ⟨line, separator⟩ := first
    cases i with
    | zero => simpa [joined] using start
    | succ i =>
      rw [joined_cons] at split
      rw [List.map_cons, List.forall_mem_cons] at unbroken
      have lineEnd : text.chars = front ++ line ++ (separator.chars ++ joined rest ++ back) := by
        simp [split]
      have lineBreak : text.chars =
          front ++ line ++ separator.chars ++ (joined rest ++ back) := by simp [split]
      have others : text.chars = front ++ line ++ separator.chars ++ joined rest ++ back := by
        simp [split]
      have next : text.pointAt (byteLength (front ++ line ++ separator.chars)) = ⟨n + 1, 0⟩ := by
        rw [pointAt_separator apart.1 lineBreak, pointAt_unbroken unbroken.1 lineEnd, start]
      have point := ih next others unbroken.2 apart.2 (Nat.le_of_succ_le_succ within)
      rw [List.take_succ_cons, joined_cons, ← List.append_assoc, ← List.append_assoc, point,
        Nat.add_right_comm, Nat.add_assoc]

end SourceText

namespace Lines

theorem chars_text (d : Lines) : d.text.chars = joined d.ended ++ d.last := rfl

theorem pointAt_start (d : Lines) {i : Nat} (within : i ≤ d.ended.length) :
    d.text.pointAt (byteLength (joined (d.ended.take i))) = ⟨i, 0⟩ := by
  have unbroken : ∀ line ∈ d.ended.map Prod.fst, Unbroken line := by
    intro line member
    exact d.unbroken line (List.mem_append_left _ member)
  have start : d.text.pointAt (byteLength []) = ⟨0, 0⟩ := by
    rw [byteLength_nil, pointAt, pointFrom_zero]
  simpa using pointAt_joined start (d.chars_text) unbroken d.apart within

theorem chars_of_ended {d : Lines} {i : Nat} {line : List Char} {separator : Separator}
    (h : d.ended[i]? = some (line, separator)) :
    d.text.chars = joined (d.ended.take i) ++ line ++ separator.chars ++
      (joined (d.ended.drop (i + 1)) ++ d.last) := by
  obtain ⟨within, found⟩ := List.getElem?_eq_some_iff.1 h
  have parts : d.ended = d.ended.take i ++ (line, separator) :: d.ended.drop (i + 1) := by
    rw [← found, List.getElem_cons_drop, List.take_append_drop]
  rw [chars_text]
  conv_lhs => rw [parts]
  rw [joined_append, joined_cons]
  simp

theorem chars_of_list {d : Lines} {i : Nat} {line : List Char} (h : d.list[i]? = some line) :
    i ≤ d.ended.length ∧ ∃ after, d.text.chars = joined (d.ended.take i) ++ line ++ after := by
  by_cases within : i < d.ended.length
  · have ended : d.ended[i]?.map Prod.fst = some line := by
      rw [list, List.getElem?_append_left (by simpa using within), List.getElem?_map] at h
      exact h
    obtain ⟨⟨_, separator⟩, found, rfl⟩ := Option.map_eq_some_iff.1 ended
    refine ⟨Nat.le_of_lt within, separator.chars ++ (joined (d.ended.drop (i + 1)) ++ d.last), ?_⟩
    rw [chars_of_ended found]
    simp
  · rw [list, List.getElem?_append_right (by simpa using within), List.length_map,
      List.getElem?_singleton] at h
    split at h
    · next zero =>
      obtain rfl := Option.some.inj h
      obtain rfl : i = d.ended.length := by omega
      exact ⟨Nat.le_refl _, [], by rw [List.take_length, List.append_nil, chars_text]⟩
    · simp at h

theorem unbroken_of_list {d : Lines} {i : Nat} {front back : List Char}
    (h : d.list[i]? = some (front ++ back)) : Unbroken front := by
  obtain ⟨noReturn, noFeed⟩ := d.unbroken _ (List.mem_of_getElem? h)
  exact ⟨fun member => noReturn (List.mem_append_left _ member),
    fun member => noFeed (List.mem_append_left _ member)⟩

theorem pointAt_offset {d : Lines} {i : Nat} {front back : List Char}
    (h : d.list[i]? = some (front ++ back)) :
    d.text.pointAt (d.offset i front) = ⟨i, unitLength front⟩ := by
  obtain ⟨within, after, split⟩ := chars_of_list h
  have place : d.text.chars = joined (d.ended.take i) ++ front ++ (back ++ after) := by
    simp [split]
  rw [offset, pointAt_unbroken (unbroken_of_list h) place, pointAt_start d within, Nat.zero_add]

theorem list_last (d : Lines) : d.list[d.ended.length]? = some (d.last ++ []) := by
  simp [list]

theorem offset_last (d : Lines) : d.offset d.ended.length d.last = byteLength d.text.chars := by
  rw [offset, List.take_length, chars_text]

theorem pointAt_between {d : Lines} {i : Nat} {line : List Char}
    (h : d.ended[i]? = some (line, .returnFeed)) :
    d.text.pointAt (d.offset i line + 1) = ⟨i, unitLength line + 1⟩ := by
  have split := chars_of_ended h
  rw [Separator.chars] at split
  have first : d.text.chars = joined (d.ended.take i) ++ line ++
      '\r' :: '\n' :: (joined (d.ended.drop (i + 1)) ++ d.last) := by simp [split]
  have listed : d.list[i]? = some (line ++ []) := by
    obtain ⟨within, found⟩ := List.getElem?_eq_some_iff.1 h
    rw [list, List.getElem?_append_left (by simpa using within), List.getElem?_map, h]
    simp
  have past : d.offset i line + 1 =
      byteLength (joined (d.ended.take i) ++ line ++ ['\r']) := by
    rw [offset, byteLength_append _ ['\r']]
    rfl
  rw [past, pointAt_snoc first, ← offset, pointAt_offset listed,
    advance_within (by simp [endsLine])]
  rfl

theorem lineCount_text (d : Lines) : d.text.lineCount = d.ended.length + 1 := by
  have split : d.text.chars = d.text.chars ++ [] := by simp
  obtain ⟨_, _, _, _, point⟩ := LineIndex.pointAt_since_start split
  rw [LineIndex.length_startsIn, ← offset_last, pointAt_offset d.list_last] at point
  rw [lineCount, ← (Point.mk.inj point).1]

theorem pointAt_past (d : Lines) {offset : Nat} (h : byteLength d.text.chars ≤ offset) :
    d.text.pointAt offset = ⟨d.ended.length, unitLength d.last⟩ := by
  rw [← pointAt_offset d.list_last, offset_last, ← pointAt_boundary, ← LineIndex.boundary_min,
    Nat.min_eq_right h, pointAt_boundary]

theorem ended_of_lineFeed {d : Lines} (h : d.text.chars.head? = some '\n') :
    ∃ rest, d.ended = ([], .lineFeed) :: rest := by
  have absent : ∀ line ∈ d.list, line.head? ≠ some '\n' := by
    intro line member found
    exact (d.unbroken line member).2 (List.mem_of_mem_head? found)
  rw [chars_text] at h
  cases parts : d.ended with
  | nil =>
    rw [parts] at h
    exact absurd h (absent d.last (by simp [list]))
  | cons first rest =>
    obtain ⟨line, separator⟩ := first
    rw [parts, joined_cons] at h
    cases line with
    | cons c line => exact absurd h (absent (c :: line) (by simp [list, parts]))
    | nil =>
      cases separator with
      | lineFeed => exact ⟨rest, rfl⟩
      | returnFeed => simp [Separator.chars] at h
      | loneReturn => simp [Separator.chars] at h

def blank (d : Lines) (separator : Separator)
    (apart : separator = .loneReturn → d.text.chars.head? ≠ some '\n') : Lines :=
  ⟨([], separator) :: d.ended, d.last, by
    intro line member
    rcases List.mem_cons.1 member with rfl | member
    · exact ⟨List.not_mem_nil, List.not_mem_nil⟩
    · exact d.unbroken line member, apart, d.apart⟩

theorem exists_cons (d : Lines) {c : Char} (notReturn : c ≠ '\r') (notFeed : c ≠ '\n') :
    ∃ e : Lines, e.text.chars = c :: d.text.chars := by
  obtain ⟨ended, last, unbroken, apart⟩ := d
  have longer : ∀ line, Unbroken line → Unbroken (c :: line) := by
    intro line whole
    exact ⟨by simp [Ne.symm notReturn, whole.1], by simp [Ne.symm notFeed, whole.2]⟩
  cases ended with
  | nil =>
    refine ⟨⟨[], c :: last, ?_, trivial⟩, rfl⟩
    simpa using longer last (unbroken last (by simp))
  | cons first rest =>
    obtain ⟨line, separator⟩ := first
    rw [List.map_cons, List.cons_append, List.forall_mem_cons] at unbroken
    refine ⟨⟨(c :: line, separator) :: rest, last, ?_, apart⟩, rfl⟩
    rw [List.map_cons, List.cons_append, List.forall_mem_cons]
    exact ⟨longer line unbroken.1, unbroken.2⟩

theorem exists_text_eq (text : SourceText) : ∃ d : Lines, d.text = text := by
  obtain ⟨chars⟩ := text
  induction chars with
  | nil => exact ⟨⟨[], [], by simp [Unbroken], trivial⟩, rfl⟩
  | cons c rest ih =>
    obtain ⟨d, layout⟩ := ih
    have chars : d.text.chars = rest := by rw [layout]
    by_cases feed : c = '\n'
    · exact ⟨d.blank .lineFeed (by simp), by rw [feed, ← chars]; rfl⟩
    · by_cases ret : c = '\r'
      · by_cases next : d.text.chars.head? = some '\n'
        -- the line feed becomes part of the separator that the carriage return starts
        · obtain ⟨ended, parts⟩ := ended_of_lineFeed next
          have split : d.text.chars = '\n' :: (joined ended ++ d.last) := by
            rw [chars_text, parts]
            rfl
          have shorter : ∀ line ∈ ended.map Prod.fst ++ [d.last], Unbroken line := by
            intro line member
            apply d.unbroken line
            rw [parts]
            exact List.mem_cons_of_mem _ member
          have apart : Apart ended d.last := by
            have := d.apart
            rw [parts] at this
            exact this.2
          refine ⟨blank ⟨ended, d.last, shorter, apart⟩ .returnFeed (by simp), ?_⟩
          rw [ret, ← chars, split]
          rfl
        · exact ⟨d.blank .loneReturn (fun _ => next), by rw [ret, ← chars]; rfl⟩
      · obtain ⟨e, text⟩ := d.exists_cons ret feed
        exact ⟨e, by rw [← chars, ← text]⟩

/-- Positions are right in every text, however its lines end. -/
theorem positions_follow_lines :
    (∀ text : SourceText, ∃ d : Lines, d.text = text) ∧
    ∀ d : Lines,
      d.text.lineCount = d.ended.length + 1 ∧
      (∀ i front back, d.list[i]? = some (front ++ back) →
        d.text.pointAt (d.offset i front) = ⟨i, unitLength front⟩) ∧
      (∀ front c back n, d.text.chars = front ++ c :: back → 0 < n → n < c.utf8Size →
        d.text.pointAt (byteLength front + n) = d.text.pointAt (byteLength (front ++ [c]))) ∧
      (∀ i line, d.ended[i]? = some (line, .returnFeed) →
        d.text.pointAt (d.offset i line + 1) = ⟨i, unitLength line + 1⟩) ∧
      (∀ offset, byteLength d.text.chars ≤ offset →
        d.text.pointAt offset = d.text.pointAt (byteLength d.text.chars) ∧
          d.text.pointAt offset = ⟨d.ended.length, unitLength d.last⟩) ∧
      ((LineIndex.ofText d.text).starts.length = d.text.lineCount ∧
        ∀ offset, (LineIndex.ofText d.text).pointAt? offset = some (d.text.pointAt offset)) ∧
      ∀ e : Lines, e.list = d.list → ∀ i front back, d.list[i]? = some (front ++ back) →
        e.text.pointAt (e.offset i front) = d.text.pointAt (d.offset i front) := by
  refine ⟨exists_text_eq, ?_⟩
  intro d
  refine ⟨d.lineCount_text, ?_, ?_, ?_, ?_, ?_, ?_⟩
  · intro i front back line
    exact pointAt_offset line
  · intro front c back n split pos inside
    rw [byteLength_append, byteLength_cons, byteLength_nil, Nat.add_zero, pointAt, pointAt, split]
    exact pointFrom_inside _ _ _ _ pos (Nat.le_of_lt inside)
  · intro i line ended
    exact pointAt_between ended
  · intro offset past
    rw [d.pointAt_past past, d.pointAt_past (Nat.le_refl _)]
    exact ⟨rfl, rfl⟩
  · exact ⟨LineIndex.length_starts d.text, LineIndex.pointAt?_ofText d.text⟩
  · intro e same i front back line
    rw [pointAt_offset line, pointAt_offset (same ▸ line)]

def accentBlankClef : Lines :=
  ⟨[(['é'], .returnFeed), ([], .loneReturn)], ['𝄞', 'x'], by decide, by decide⟩

def accentBlankClefFeeds : Lines :=
  ⟨[(['é'], .lineFeed), ([], .lineFeed)], ['𝄞', 'x'], by decide, by decide⟩

theorem accentBlankClef_positions :
    accentBlankClef.text.chars = ['é', '\r', '\n', '\r', '𝄞', 'x'] ∧
      accentBlankClef.text.lineCount = 3 ∧
      accentBlankClef.text.pointAt (accentBlankClef.offset 2 ['𝄞']) = ⟨2, 2⟩ ∧
      accentBlankClef.text.pointAt 6 = accentBlankClef.text.pointAt 9 ∧
      accentBlankClef.text.pointAt 3 = ⟨0, 2⟩ ∧
      accentBlankClef.text.pointAt 99 = ⟨2, 3⟩ ∧
      (LineIndex.ofText accentBlankClef.text).pointAt? 99 = some ⟨2, 3⟩ ∧
      accentBlankClefFeeds.text.pointAt (accentBlankClefFeeds.offset 2 ['𝄞']) = ⟨2, 2⟩ := by
  obtain ⟨count, places, inside, between, past, ⟨_, index⟩, same⟩ :=
    positions_follow_lines.2 accentBlankClef
  have clef : accentBlankClef.list[2]? = some (['𝄞'] ++ ['x']) := rfl
  have stop := (past 99 (by decide)).2
  refine ⟨rfl, count, places 2 ['𝄞'] ['x'] clef, ?_, between 0 ['é'] rfl, stop, ?_, ?_⟩
  · exact inside ['é', '\r', '\n', '\r'] '𝄞' ['x'] 1 rfl (by decide) (by decide)
  · rw [index, stop]
    rfl
  · rw [same accentBlankClefFeeds rfl 2 ['𝄞'] ['x'] clef]
    exact places 2 ['𝄞'] ['x'] clef

end Lines
end CodeAtlas
