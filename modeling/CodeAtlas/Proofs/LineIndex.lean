import CodeAtlas.Proofs.Boundaries
import CodeAtlas.Text.Utf8
import Mathlib.Data.List.Induction
import Mathlib.Order.Bounds.Basic

/-!
An index of the lines of a text. The starts of the lines are gathered by one scan over the bytes;
the line of an offset is looked up among them by halving, and its column is counted from the start
of that line. A step that has no answer for what it is given answers `none`. Main statement: the
index always answers, and with the point of the text.
-/
namespace CodeAtlas
open Text SourceText

structure LineIndex where
  text : SourceText
  starts : List Nat
  deriving DecidableEq, Repr

namespace LineIndex

def lineFeed : UInt8 := 0x0A
def carriageReturn : UInt8 := 0x0D

/-- The starts of the lines after the first, when `bytes` stand at the offset `i`. -/
def scan (i : Nat) : Bytes → List Nat
  | [] => []
  | [b] => if b = lineFeed ∨ b = carriageReturn then [i + 1] else []
  | b :: c :: rest =>
    if b = lineFeed then (i + 1) :: scan (i + 1) (c :: rest)
    else if b = carriageReturn then
      if c = lineFeed then (i + 2) :: scan (i + 2) rest else (i + 1) :: scan (i + 1) (c :: rest)
    else scan (i + 1) (c :: rest)

def ofText (text : SourceText) : LineIndex := ⟨text, 0 :: scan 0 (Utf8.encode text.chars)⟩

/-- Halves what lies from the place `lo` up to `hi`: the place of `x`, or else the one where `x`
would be put. -/
def search (starts : List Nat) (x lo hi : Nat) : Option (Except Nat Nat) :=
  if lo < hi then
    let mid := lo + (hi - lo) / 2
    match starts[mid]? with
    | none => none
    | some s =>
      if s = x then some (.ok mid)
      else if s < x then search starts x (mid + 1) hi
      else search starts x lo mid
  else some (.error lo)
termination_by hi - lo

def lineOf? (starts : List Nat) (offset : Nat) : Option Nat := do
  match ← search starts offset 0 starts.length with
  | .ok exact => some exact
  | .error next => if next = 0 then none else some (next - 1)

def boundaryFrom? (text : SourceText) (offset : Nat) : Option Nat :=
  (List.range' offset (byteLength text.chars + 1 - offset)).find? text.isBoundary

def slice? (text : SourceText) (start stop : Nat) : Option (List Char) :=
  if start ≤ stop then (dropBytes? start text.chars).bind (takeBytes? (stop - start)) else none

def pointAt? (index : LineIndex) (offset : Nat) : Option Point := do
  let offset := min offset (byteLength index.text.chars)
  let line ← lineOf? index.starts offset
  let start ← index.starts[line]?
  let stop ← boundaryFrom? index.text offset
  let before ← slice? index.text start stop
  pure ⟨line, unitLength before⟩

theorem scan_cons (i : Nat) (b : UInt8) (rest : Bytes) :
    scan i (b :: rest) =
      (if b = lineFeed ∨ b = carriageReturn ∧ rest.head? ≠ some lineFeed then [i + 1] else []) ++
        scan (i + 1) rest := by
  have differ : carriageReturn ≠ lineFeed := by decide
  cases rest with
  | nil => simp [scan]
  | cons c rest =>
    rw [scan, List.head?_cons]
    by_cases feed : b = lineFeed
    · simp [feed]
    · by_cases ret : b = carriageReturn
      · by_cases next : c = lineFeed
        -- the line feed after a carriage return is the one that ends the line
        · subst next ret
          have ends : scan (i + 1) (lineFeed :: rest) = (i + 2) :: scan (i + 2) rest := by
            cases rest <;> simp [scan]
          simp [differ, ends]
        · simp [ret, next]
      · simp [feed, ret]

theorem scan_append {high : Bytes} (h : ∀ b ∈ high, b ≠ lineFeed ∧ b ≠ carriageReturn) (i : Nat)
    (rest : Bytes) : scan i (high ++ rest) = scan (i + high.length) rest := by
  induction high generalizing i with
  | nil => rfl
  | cons b high ih =>
    obtain ⟨feed, ret⟩ := h b List.mem_cons_self
    rw [List.cons_append, scan_cons, if_neg (by simp [feed, ret]), List.nil_append,
      ih fun c hc => h c (List.mem_cons_of_mem _ hc), List.length_cons]
    congr 1
    omega

theorem utf8EncodeChar_cases (c : Char) :
    (c.toNat < 128 ∧ String.utf8EncodeChar c = [UInt8.ofNat c.toNat]) ∨
      (128 ≤ c.toNat ∧ ∀ b ∈ String.utf8EncodeChar c, 128 ≤ b.toNat) := by
  have value : c.val.toNat = c.toNat := rfl
  rw [String.utf8EncodeChar.eq_def]
  simp only [value]
  by_cases ascii : c.toNat ≤ 127
  · exact Or.inl ⟨by omega, by rw [if_pos ascii]⟩
  · refine Or.inr ⟨by omega, ?_⟩
    rw [if_neg ascii]
    split
    · simp only [List.mem_cons, List.not_mem_nil, or_false, forall_eq_or_imp, forall_eq,
        UInt8.toNat_ofNat']
      omega
    · split
      · simp only [List.mem_cons, List.not_mem_nil, or_false, forall_eq_or_imp, forall_eq,
          UInt8.toNat_ofNat']
        omega
      · simp only [List.mem_cons, List.not_mem_nil, or_false, forall_eq_or_imp, forall_eq,
          UInt8.toNat_ofNat']
        omega

theorem ofNat_eq_iff {n : Nat} (h : n < 128) (b : UInt8) : UInt8.ofNat n = b ↔ n = b.toNat := by
  rw [← UInt8.toNat_inj, UInt8.toNat_ofNat']
  omega

theorem head?_encode (s : List Char) :
    (Utf8.encode s).head? = some lineFeed ↔ s.head? = some '\n' := by
  cases s with
  | nil => simp [Utf8.encode]
  | cons c rest =>
    rw [Utf8.encode, List.flatMap_cons, List.head?_cons, Option.some_inj, ← Char.toNat_inj]
    rcases utf8EncodeChar_cases c with ⟨ascii, bytes⟩ | ⟨wide, bytes⟩
    · rw [bytes, List.singleton_append, List.head?_cons, Option.some_inj, ofNat_eq_iff ascii]
      rfl
    · have size : (String.utf8EncodeChar c).length = c.utf8Size := String.length_utf8EncodeChar c
      have pos := c.utf8Size_pos
      cases encoded : String.utf8EncodeChar c with
      | nil =>
        rw [encoded, List.length_nil] at size
        omega
      | cons b more =>
        have high := bytes b (by rw [encoded]; exact List.mem_cons_self)
        have low : lineFeed.toNat = 10 := rfl
        have feed : '\n'.toNat = 10 := rfl
        rw [List.cons_append, List.head?_cons, Option.some_inj, ← UInt8.toNat_inj]
        omega

/-- The starts of the lines that begin after a character of `front`, when `front` stands at the
offset `i` and before `back`. -/
def startsIn (i : Nat) : List Char → List Char → List Nat
  | [], _ => []
  | c :: front, back =>
    (if endsLine c (front ++ back) then [i + c.utf8Size] else []) ++
      startsIn (i + c.utf8Size) front back

theorem endsLine_iff (c : Char) (rest : List Char) :
    endsLine c rest ↔ c = '\n' ∨ c = '\r' ∧ rest.head? ≠ some '\n' := by
  simp [endsLine]

theorem scan_encode (i : Nat) (s : List Char) : scan i (Utf8.encode s) = startsIn i s [] := by
  induction s generalizing i with
  | nil => rfl
  | cons c rest ih =>
    have size : (String.utf8EncodeChar c).length = c.utf8Size := String.length_utf8EncodeChar c
    rw [Utf8.encode, List.flatMap_cons, ← Utf8.encode, startsIn, List.append_nil, ← ih]
    rcases utf8EncodeChar_cases c with ⟨ascii, bytes⟩ | ⟨wide, bytes⟩
    · rw [bytes, List.length_singleton] at size
      have ends : (UInt8.ofNat c.toNat = lineFeed ∨
          UInt8.ofNat c.toNat = carriageReturn ∧ (Utf8.encode rest).head? ≠ some lineFeed) ↔
            endsLine c rest = true := by
        rw [endsLine_iff, ne_eq, head?_encode, ofNat_eq_iff ascii, ofNat_eq_iff ascii,
          ← Char.toNat_inj, ← Char.toNat_inj]
        rfl
      rw [bytes, List.singleton_append, scan_cons, ← size]
      simp only [ends]
    · have plain : ∀ b ∈ String.utf8EncodeChar c, b ≠ lineFeed ∧ b ≠ carriageReturn := by
        intro b member
        have high := bytes b member
        constructor <;> rintro rfl <;> exact absurd high (by decide)
      have unended : ¬ endsLine c rest = true := by
        rw [endsLine_iff, ← Char.toNat_inj, ← Char.toNat_inj]
        have feed : '\n'.toNat = 10 := rfl
        have ret : '\r'.toNat = 13 := rfl
        omega
      rw [scan_append plain, size, if_neg unended, List.nil_append]

theorem startsIn_append (i : Nat) (a b back : List Char) :
    startsIn i (a ++ b) back = startsIn i a (b ++ back) ++ startsIn (i + byteLength a) b back := by
  induction a generalizing i with
  | nil => rfl
  | cons c a ih =>
    rw [List.cons_append, startsIn, startsIn, ih, List.append_assoc, List.append_assoc,
      byteLength_cons, Nat.add_assoc]

theorem of_mem_startsIn {i s : Nat} {front back : List Char} (h : s ∈ startsIn i front back) :
    ∃ a b, front = a ++ b ∧ s = i + byteLength a + 1 ∧ byteLength a + 1 ≤ byteLength front := by
  induction front generalizing i with
  | nil => simp [startsIn] at h
  | cons c front ih =>
    rw [startsIn, List.mem_append] at h
    rcases h with here | later
    · split at here
      · next ends =>
        have size : c.utf8Size = 1 := by
          rcases (endsLine_iff _ _).1 ends with rfl | ⟨rfl, _⟩ <;> rfl
        rw [List.mem_singleton.1 here, size, byteLength_cons, size]
        exact ⟨[], c :: front, rfl, rfl, by simp⟩
      · simp at here
    · obtain ⟨a, b, rfl, start, within⟩ := ih later
      refine ⟨c :: a, b, rfl, ?_, ?_⟩
      · rw [start, byteLength_cons]
        omega
      · rw [byteLength_cons, byteLength_cons]
        omega

theorem startsIn_pairwise (i : Nat) (front back : List Char) :
    (startsIn i front back).Pairwise (· < ·) := by
  induction front generalizing i with
  | nil => exact List.Pairwise.nil
  | cons c front ih =>
    rw [startsIn]
    split
    · rw [List.singleton_append, List.pairwise_cons]
      refine ⟨?_, ih _⟩
      intro s member
      obtain ⟨a, b, _, start, _⟩ := of_mem_startsIn member
      omega
    · exact ih _

theorem length_startsIn (i : Nat) (s : List Char) : (startsIn i s []).length = lineBreaks s := by
  induction s generalizing i with
  | nil => rfl
  | cons c rest ih =>
    rw [startsIn, List.append_nil, List.length_append, ih, lineBreaks]
    split <;> rfl

/-- Where halving stands: `x` can only be found from `lo` up to `hi`. -/
structure Bracketed (starts : List Nat) (x lo hi : Nat) : Prop where
  within : hi ≤ starts.length
  below : ∀ j s, j < lo → starts[j]? = some s → s < x
  above : ∀ j s, hi ≤ j → starts[j]? = some s → x < s

theorem lt_of_pairwise {starts : List Nat} (sorted : starts.Pairwise (· < ·)) {i j s t : Nat}
    (h : i < j) (hs : starts[i]? = some s) (ht : starts[j]? = some t) : s < t := by
  obtain ⟨hi, rfl⟩ := List.getElem?_eq_some_iff.1 hs
  obtain ⟨hj, rfl⟩ := List.getElem?_eq_some_iff.1 ht
  exact List.pairwise_iff_getElem.1 sorted i j hi hj h

/-- Halving ends with the place of `x`, or with the one between what is below and above it. -/
theorem search_spec {starts : List Nat} (sorted : starts.Pairwise (· < ·)) {x lo hi : Nat}
    (bracketed : Bracketed starts x lo hi) (ordered : lo ≤ hi) :
    (∃ m, search starts x lo hi = some (.ok m) ∧ starts[m]? = some x) ∨
      ∃ m, search starts x lo hi = some (.error m) ∧ Bracketed starts x m m := by
  fun_induction search starts x lo hi with
  | case1 lo hi open_ mid missing =>
    have := bracketed.within
    rw [List.getElem?_eq_none_iff] at missing
    omega
  | case2 lo hi _ mid found => exact Or.inl ⟨mid, rfl, found⟩
  | case3 lo hi _ mid s found _ low ih =>
    refine ih ⟨bracketed.within, ?_, bracketed.above⟩ (by omega)
    intro j t before ht
    rcases Nat.lt_or_eq_of_le (Nat.le_of_lt_succ before) with earlier | rfl
    · exact Nat.lt_trans (lt_of_pairwise sorted earlier ht found) low
    · rw [found, Option.some_inj] at ht
      omega
  | case4 lo hi _ mid s found differ low ih =>
    have high : x < s := by omega
    refine ih ⟨by have := bracketed.within; omega, bracketed.below, ?_⟩ (by omega)
    intro j t after ht
    rcases Nat.lt_or_eq_of_le after with later | rfl
    · exact Nat.lt_trans high (lt_of_pairwise sorted later found ht)
    · rw [found, Option.some_inj] at ht
      omega
  | case5 lo hi closed =>
    obtain rfl : lo = hi := by omega
    exact Or.inr ⟨lo, rfl, bracketed⟩

theorem lineOf?_append {first offset : Nat} {early late : List Nat}
    (sorted : (first :: early ++ late).Pairwise (· < ·))
    (reached : ∀ s ∈ first :: early, s ≤ offset) (ahead : ∀ s ∈ late, offset < s) :
    lineOf? (first :: early ++ late) offset = some early.length := by
  have places : (first :: early ++ late).length = early.length + 1 + late.length :=
    List.length_append
  have reached_iff : ∀ m s, (first :: early ++ late)[m]? = some s →
      (s ≤ offset ↔ m ≤ early.length) := by
    intro m s found
    by_cases inside : m < (first :: early).length
    · rw [List.getElem?_append_left inside] at found
      have := reached s (List.mem_of_getElem? found)
      rw [List.length_cons] at inside
      omega
    · rw [List.getElem?_append_right (Nat.le_of_not_lt inside)] at found
      have := ahead s (List.mem_of_getElem? found)
      rw [List.length_cons] at inside
      omega
  have place : ∀ m, m < early.length + 1 + late.length →
      ∃ s, (first :: early ++ late)[m]? = some s := by
    intro m inside
    exact ⟨_, List.getElem?_eq_getElem (places ▸ inside)⟩
  have whole : Bracketed (first :: early ++ late) offset 0 (first :: early ++ late).length := by
    refine ⟨Nat.le_refl _, by omega, ?_⟩
    intro j s beyond found
    rw [List.getElem?_eq_none beyond] at found
    simp at found
  rw [lineOf?]
  rcases search_spec sorted whole (Nat.zero_le _) with ⟨m, result, found⟩ | ⟨m, result, around⟩
  · have upTo := (reached_iff m offset found).1 (Nat.le_refl _)
    have last : m = early.length := by
      by_contra before
      obtain ⟨s, next⟩ := place (m + 1) (by omega)
      have grows := lt_of_pairwise sorted (Nat.lt_succ_self m) found next
      have := (reached_iff _ s next).2 (by omega)
      omega
    rw [result, last]
    rfl
  · have within := around.within
    have after : early.length < m := by
      by_contra before
      obtain ⟨s, here⟩ := place early.length (by omega)
      have := around.above _ s (by omega) here
      have := (reached_iff _ s here).2 (Nat.le_refl _)
      omega
    have upTo : m ≤ early.length + 1 := by
      by_contra beyond
      obtain ⟨s, next⟩ := place (early.length + 1) (by omega)
      have := around.below _ s (by omega) next
      have := (reached_iff _ s next).1 (by omega)
      omega
    obtain rfl : m = early.length + 1 := by omega
    rw [result]
    rfl

theorem boundaryFrom?_eq (text : SourceText) {offset : Nat}
    (h : offset ≤ byteLength text.chars) :
    boundaryFrom? text offset = some (text.boundary offset) := by
  obtain ⟨⟨bound, reaches⟩, least⟩ := isLeast_boundary text offset
  have inside : text.boundary offset ≤ byteLength text.chars := by
    apply least
    exact ⟨isBoundary_iff.2 ⟨text.chars, [], by simp, rfl⟩, Nat.min_le_right _ _⟩
  rw [boundaryFrom?, List.find?_range'_eq_some]
  refine ⟨bound, ?_, ?_⟩
  · rw [List.mem_range'_1]
    omega
  · intro j after before
    rw [Bool.not_eq_true', ← Bool.not_eq_true]
    intro earlier
    have := least ⟨earlier, by omega⟩
    omega

theorem slice?_append {text : SourceText} {a b back : List Char}
    (split : text.chars = a ++ b ++ back) :
    slice? text (byteLength a) (byteLength (a ++ b)) = some b := by
  have width : byteLength (a ++ b) - byteLength a = byteLength b := by
    rw [byteLength_append]
    omega
  rw [slice?, if_pos (by rw [byteLength_append]; omega), width, split, List.append_assoc,
    dropBytes?_byteLength, Option.bind_some, takeBytes?_byteLength]

/-- Along a text, the line counts the starts that were passed and the column is the length of what
follows the last of them. -/
theorem pointAt_since_start {text : SourceText} {front back : List Char}
    (split : text.chars = front ++ back) :
    ∃ a b, front = a ++ b ∧ (0 :: startsIn 0 front back).getLast? = some (byteLength a) ∧
      text.pointAt (byteLength front) = ⟨(startsIn 0 front back).length, unitLength b⟩ := by
  induction front using List.reverseRecOn generalizing back with
  | nil => exact ⟨[], [], rfl, rfl, by rw [byteLength_nil, pointAt, pointFrom_zero]; rfl⟩
  | append_singleton front c ih =>
    rw [List.append_assoc, List.singleton_append] at split
    obtain ⟨a, b, parts, last, point⟩ := ih split
    have starts : startsIn 0 (front ++ [c]) back = startsIn 0 front (c :: back) ++
        if endsLine c back then [byteLength (front ++ [c])] else [] := by
      simp [startsIn_append, startsIn]
    rw [pointAt_snoc split, point, advance, starts]
    by_cases ends : endsLine c back
    · refine ⟨front ++ [c], [], by simp, ?_, ?_⟩
      · rw [if_pos ends, ← List.cons_append, List.getLast?_concat]
      · simp [ends]
    · refine ⟨a, b ++ [c], by rw [parts, List.append_assoc], ?_, ?_⟩
      · rw [if_neg ends, List.append_nil, last]
      · simp [ends]

@[simp]
theorem text_ofText (text : SourceText) : (ofText text).text = text := rfl

theorem starts_pairwise (text : SourceText) : (ofText text).starts.Pairwise (· < ·) := by
  rw [ofText, scan_encode, List.pairwise_cons]
  refine ⟨?_, startsIn_pairwise _ _ _⟩
  intro s member
  obtain ⟨_, _, _, start, _⟩ := of_mem_startsIn member
  omega

theorem starts_split {text : SourceText} {front back : List Char}
    (split : text.chars = front ++ back) :
    (ofText text).starts =
      0 :: startsIn 0 front back ++ startsIn (byteLength front) back [] := by
  rw [ofText, scan_encode, split, startsIn_append, List.append_nil, Nat.zero_add,
    List.cons_append]

theorem lineOf?_starts {text : SourceText} {front back : List Char} {offset : Nat}
    (split : text.chars = front ++ back) (stop : text.boundary offset = byteLength front)
    (inside : offset ≤ byteLength text.chars) :
    lineOf? (ofText text).starts offset = some (startsIn 0 front back).length := by
  obtain ⟨⟨_, reaches⟩, least⟩ := isLeast_boundary text offset
  have sorted := starts_pairwise text
  rw [starts_split split] at sorted ⊢
  apply lineOf?_append sorted
  · intro s member
    rcases List.mem_cons.1 member with rfl | member
    · exact Nat.zero_le _
    · obtain ⟨a, b, parts, start, within⟩ := of_mem_startsIn member
      -- were it after the offset, the boundary right before it would do for the offset as well
      by_contra after
      have earlier : text.isBoundary (byteLength a) :=
        isBoundary_iff.2 ⟨a, b ++ back, by rw [split, parts, List.append_assoc], rfl⟩
      have := least ⟨earlier, by omega⟩
      omega
  · intro s member
    obtain ⟨_, _, _, start, _⟩ := of_mem_startsIn member
    omega

theorem boundary_min (text : SourceText) (offset : Nat) :
    text.boundary (min offset (byteLength text.chars)) = text.boundary offset := by
  have clamped := isLeast_boundary text (min offset (byteLength text.chars))
  rw [Nat.min_assoc, Nat.min_self] at clamped
  exact clamped.unique (isLeast_boundary text offset)

/-- The index answers for every offset, and with its point. -/
theorem pointAt?_ofText (text : SourceText) (offset : Nat) :
    (ofText text).pointAt? offset = some (text.pointAt offset) := by
  have inside : min offset (byteLength text.chars) ≤ byteLength text.chars := Nat.min_le_right _ _
  obtain ⟨front, back, split, length⟩ :=
    boundaryFrom_split text.chars (min offset (byteLength text.chars))
  obtain ⟨a, b, parts, last, point⟩ := pointAt_since_start split
  have stop : text.boundary (min offset (byteLength text.chars)) = byteLength front := length.symm
  have line := lineOf?_starts split stop inside
  have start : (ofText text).starts[(startsIn 0 front back).length]? = some (byteLength a) := by
    rw [starts_split split, List.getElem?_append_left (by simp), ← last,
      List.getLast?_eq_getElem?]
    rfl
  have before : slice? text (byteLength a) (byteLength front) = some b := by
    rw [parts]
    exact slice?_append (parts ▸ split)
  have same : text.pointAt (byteLength front) = text.pointAt offset := by
    rw [← stop, boundary_min, pointAt_boundary]
  simp only [pointAt?, text_ofText, line, start, boundaryFrom?_eq text inside, stop, before,
    Option.bind_eq_bind, Option.bind_some, Option.pure_def]
  rw [← same, point]

theorem length_starts (text : SourceText) : (ofText text).starts.length = text.lineCount := by
  rw [ofText, scan_encode, List.length_cons, length_startsIn, lineCount]

end LineIndex
end CodeAtlas
