import CodeAtlas.Json.Decode
import CodeAtlas.Json.Reader
import CodeAtlas.Json.Writer

/-!
Written JSON can be read back. Texts come back from their escaped form and naturals from their
digits, whatever follows them, and so do whole trees whose texts and numbers were written here.
-/
namespace CodeAtlas.Json
open Text

namespace Quoted

theorem unit?_control {n : Nat} (h : n < 0x20) :
    unit? '0' '0' (hexDigit (n / 16)) (hexDigit (n % 16)) = some n := by
  revert n
  decide

theorem not_half {n : Nat} (h : n < 0x20) : isHighHalf n = false ∧ isLowHalf n = false := by
  revert n
  decide

theorem escapeChar_cases (c : Char) :
    (∃ e, escapeChar c = ['\\', e] ∧ e ≠ 'u' ∧ simpleEscape? e = some c) ∨
      (c.toNat < 0x20 ∧ escapeChar c =
        ['\\', 'u', '0', '0', hexDigit (c.toNat / 16), hexDigit (c.toNat % 16)]) ∨
      (escapeChar c = [c] ∧ c ≠ '"' ∧ c ≠ '\\' ∧ ¬ c.toNat < 0x20) := by
  unfold escapeChar
  by_cases quote : c = '"'
  · exact Or.inl ⟨'"', by simp [quote], by decide, by simp [quote, simpleEscape?]⟩
  by_cases backslash : c = '\\'
  · exact Or.inl ⟨'\\', by simp [backslash], by decide, by simp [backslash, simpleEscape?]⟩
  by_cases backspace : c = '\x08'
  · exact Or.inl ⟨'b', by simp [backspace], by decide, by simp [backspace, simpleEscape?]⟩
  by_cases formFeed : c = '\x0c'
  · exact Or.inl ⟨'f', by simp [formFeed], by decide, by simp [formFeed, simpleEscape?]⟩
  by_cases lineFeed : c = '\n'
  · exact Or.inl ⟨'n', by simp [lineFeed], by decide, by simp [lineFeed, simpleEscape?]⟩
  by_cases carriageReturn : c = '\r'
  · exact Or.inl ⟨'r', by simp [carriageReturn], by decide, by simp [carriageReturn, simpleEscape?]⟩
  by_cases tab : c = '\t'
  · exact Or.inl ⟨'t', by simp [tab], by decide, by simp [tab, simpleEscape?]⟩
  rw [if_neg quote, if_neg backslash, if_neg backspace, if_neg formFeed, if_neg lineFeed,
    if_neg carriageReturn, if_neg tab]
  by_cases control : c.toNat < 0x20
  · exact Or.inr (Or.inl ⟨control, if_pos control⟩)
  · exact Or.inr (Or.inr ⟨if_neg control, quote, backslash, control⟩)

theorem unescape?_escapeChar (c : Char) (rest : List Char) :
    unescape? (escapeChar c ++ rest) = (unescape? rest).map (c :: ·) := by
  rcases escapeChar_cases c with ⟨e, written, notUnit, simple⟩ | ⟨control, written⟩ | ⟨written, h⟩
  · rw [written, List.cons_append, List.singleton_append, unescape?, simple]
    intros
    contradiction
  · obtain ⟨notHigh, notLow⟩ := not_half control
    rw [written]
    simp only [List.cons_append, List.nil_append]
    rw [unescape?, unit?_control control]
    simp [notHigh, notLow]
  · obtain ⟨_, notBackslash, _⟩ := h
    rw [written, List.singleton_append, unescape?]
    all_goals
      intros
      contradiction

theorem body?_escapeChar (c : Char) (rest : List Char) :
    body? (escapeChar c ++ rest) = (body? rest).map fun (w, r) => (escapeChar c ++ w, r) := by
  rcases escapeChar_cases c with ⟨e, written, notUnit, simple⟩ | ⟨control, written⟩ | ⟨written, h⟩
  · rw [written, List.cons_append, List.singleton_append, body?, simple]
    · rfl
    · intros
      contradiction
  · rw [written]
    simp only [List.cons_append, List.nil_append]
    rw [body?, unit?_control control]
  · obtain ⟨notQuote, notBackslash, visible⟩ := h
    rw [written, List.singleton_append, body?, if_neg visible]
    · rfl
    all_goals
      intros
      contradiction

theorem unescape?_escape (s : List Char) : unescape? (escape s) = some s := by
  induction s with
  | nil => rfl
  | cons c s ih =>
    rw [escape, List.flatMap_cons, unescape?_escapeChar, ← escape, ih, Option.map_some]

theorem body?_escape (s rest : List Char) :
    body? (escape s ++ '"' :: rest) = some (escape s, rest) := by
  induction s with
  | nil => rw [escape, List.flatMap_nil, List.nil_append, body?]
  | cons c s ih =>
    rw [escape, List.flatMap_cons, ← escape, List.append_assoc, body?_escapeChar, ih,
      Option.map_some]

end Quoted

namespace Number

theorem isDigit_eq (c : Char) : isDigit c = c.isDigit := by
  rw [isDigit, Char.isDigit]
  rfl

theorem isDigit_write {n : Nat} {c : Char} (h : c ∈ write n) : isDigit c := by
  rw [isDigit_eq]
  exact Nat.isDigit_of_mem_toDigits (by decide) (by decide) h

theorem ofDigits_write (n : Nat) : ofDigits (write n) = n := by
  have same : ofDigits (write n) = Nat.ofDigitChars 10 (write n) 0 := by
    simp only [ofDigits, Nat.ofDigitChars_eq_foldl, Nat.mul_comm]
  rw [same]
  exact Nat.ofDigitChars_ten_toDigits

theorem all_isDigit_write (n : Nat) : (write n).all isDigit = true :=
  List.all_eq_true.2 fun _ member => isDigit_write member

theorem write_eq_cons (n : Nat) : ∃ c w, write n = c :: w ∧ isDigit c ∧ (0 < n → c ≠ '0') := by
  have filled : ∃ c w, write n = c :: w ∧ (0 < n → c ≠ '0') := by
    induction n using Nat.base_induction 10 (by decide) with
    | single m small =>
      refine ⟨m.digitChar, [], Nat.toDigits_of_lt_base small, ?_⟩
      intro pos zero
      rw [Nat.digitChar_eq_zero] at zero
      omega
    | digit m k small pos ih =>
      obtain ⟨c, w, written, nonzero⟩ := ih
      refine ⟨c, w ++ Nat.toDigits 10 k, ?_, fun _ => nonzero pos⟩
      rw [write, ← Nat.toDigits_append_toDigits (by decide) pos small, ← write, written]
      rfl
  obtain ⟨c, w, written, nonzero⟩ := filled
  exact ⟨c, w, written, isDigit_write (written ▸ List.mem_cons_self), nonzero⟩

/-- What follows does not carry on a number. -/
def Stops (rest : List Char) : Prop :=
  ∀ c ∈ rest.head?, isDigit c = false ∧ c ≠ '.' ∧ c ≠ 'e' ∧ c ≠ 'E'

theorem stops_cons {c : Char} (h : isDigit c = false ∧ c ≠ '.' ∧ c ≠ 'e' ∧ c ≠ 'E')
    (rest : List Char) : Stops (c :: rest) := by
  intro d member
  rw [List.head?_cons, Option.mem_some_iff] at member
  rw [← member]
  exact h

theorem ne_of_isDigit {c d : Char} (digit : isDigit c) (other : isDigit d = false) : c ≠ d := by
  rintro rfl
  rw [digit] at other
  contradiction

theorem digits?_write (n : Nat) {rest : List Char} (stops : Stops rest) :
    digits? (write n ++ rest) = some (write n, rest) := by
  have none : rest.takeWhile isDigit = [] ∧ rest.dropWhile isDigit = rest := by
    cases rest with
    | nil => simp
    | cons c rest => simp [(stops c rfl).1]
  have digits := List.all_eq_true.1 (all_isDigit_write n)
  obtain ⟨c, w, written, _⟩ := write_eq_cons n
  rw [digits?, List.takeWhile_append_of_pos digits, List.dropWhile_append_of_pos digits, none.1,
    none.2, List.append_nil, written]

theorem whole?_write (n : Nat) {rest : List Char} (stops : Stops rest) :
    whole? (write n ++ rest) = some (write n, rest) := by
  by_cases zero : n = 0
  · have alone : (rest.head?.map isDigit).getD false = false := by
      cases rest with
      | nil => rfl
      | cons c rest => exact (stops c rfl).1
    have written : write n = ['0'] := by rw [zero, write, Nat.toDigits_zero]
    rw [written, List.singleton_append, whole?, alone]
    rfl
  · obtain ⟨c, w, written, _, nonzero⟩ := write_eq_cons n
    have digits := digits?_write n stops
    rw [written, List.cons_append] at digits ⊢
    rw [whole?, digits]
    intro tail same
    exact absurd (List.cons.inj same).1 (nonzero (by omega))

theorem fraction?_stops {rest : List Char} (stops : Stops rest) :
    fraction? rest = some ([], rest) := by
  rw [fraction?.eq_def]
  split
  · exact absurd rfl (stops '.' rfl).2.1
  · rfl

theorem exponent?_stops {rest : List Char} (stops : Stops rest) :
    exponent? rest = some ([], rest) := by
  cases rest with
  | nil => rfl
  | cons c rest =>
    obtain ⟨_, _, small, large⟩ := stops c rfl
    rw [exponent?.eq_def]
    simp [small, large]

theorem read?_write (n : Nat) {rest : List Char} (stops : Stops rest) :
    read? (write n ++ rest) = some (write n, rest) := by
  have unsigned : unsigned? (write n ++ rest) = some (write n, rest) := by
    simp [unsigned?, whole?_write n stops, fraction?_stops stops, exponent?_stops stops]
  obtain ⟨c, w, written, digit, _⟩ := write_eq_cons n
  rw [written, List.cons_append] at unsigned ⊢
  rw [read?, unsigned]
  intro tail same
  rw [(List.cons.inj same).1] at digit
  exact absurd digit (by decide)

theorem offset?_write {n : Nat} (h : n < UInt64.size) : offset? (write n) = some n := by
  obtain ⟨c, w, written, _⟩ := write_eq_cons n
  have filled : (write n).isEmpty = false := by rw [written]; rfl
  rw [offset?, ofDigits_write, all_isDigit_write, filled]
  simp [h]

end Number

theorem skipSpace_cons {c : Char} {s : List Char} (h : isSpace c = false) :
    skipSpace (c :: s) = c :: s := by
  rw [skipSpace, List.dropWhile_cons_of_neg (by simp [h])]

theorem isSpace_of_isDigit {c : Char} (digit : Number.isDigit c) : isSpace c = false := by
  have differ : ∀ d, Number.isDigit d = false → c ≠ d := fun d => Number.ne_of_isDigit digit
  simp [isSpace, differ ' ' (by decide), differ '\t' (by decide), differ '\n' (by decide),
    differ '\r' (by decide)]

theorem plain?_digit {c : Char} (digit : Number.isDigit c) (s : List Char) :
    plain? (c :: s) = (Number.read? (c :: s)).map fun (w, rest) => (.num w, rest) := by
  have differ : ∀ d, Number.isDigit d = false → d ≠ c := fun d other =>
    (Number.ne_of_isDigit digit other).symm
  have noNull : after? "null".toList (c :: s) = none := if_neg (differ 'n' (by decide))
  have noTrue : after? "true".toList (c :: s) = none := if_neg (differ 't' (by decide))
  have noFalse : after? "false".toList (c :: s) = none := if_neg (differ 'f' (by decide))
  rw [plain?, noNull, noTrue, noFalse]

namespace Value

/-- A tree whose keys, texts and numbers are as they are written here. -/
inductive Written : Value → Prop
  | null : Written .null
  | bool (b : Bool) : Written (.bool b)
  | num (n : Nat) : Written (.num (Number.write n))
  | str (s : List Char) : Written (.str (Quoted.escape s))
  | arr {items : List Value} (each : ∀ v ∈ items, Written v) : Written (.arr items)
  | obj {members : List (List Char × Value)} (keys : ∀ m ∈ members, ∃ s, m.1 = Quoted.escape s)
      (each : ∀ m ∈ members, Written m.2) : Written (.obj members)

theorem Written.render_eq_cons {v : Value} (h : Written v) :
    ∃ c w, v.render = c :: w ∧ isSpace c = false ∧ c ≠ ']' := by
  cases h with
  | null => exact ⟨'n', _, rfl, by decide, by decide⟩
  | bool b =>
    cases b
    · exact ⟨'f', _, rfl, by decide, by decide⟩
    · exact ⟨'t', _, rfl, by decide, by decide⟩
  | num n =>
    obtain ⟨c, w, written, digit, _⟩ := Number.write_eq_cons n
    exact ⟨c, w, written, isSpace_of_isDigit digit, Number.ne_of_isDigit digit (by decide)⟩
  | str s => exact ⟨'"', _, rfl, by decide, by decide⟩
  | arr each => exact ⟨'[', _, rfl, by decide, by decide⟩
  | obj keys each => exact ⟨'\x7b', _, rfl, by decide, by decide⟩

/-- A tree is read from its text, and what follows the text is left. -/
def Reads (v : Value) : Prop :=
  ∀ fuel rest, 2 * v.render.length ≤ fuel → Number.Stops rest →
    value? fuel (v.render ++ rest) = some (v, rest)

theorem items?_renderItems {items : List Value} (filled : items ≠ [])
    (each : ∀ v ∈ items, v.Reads) {fuel : Nat} (enough : 2 * (renderItems items).length < fuel)
    (rest : List Char) : items? fuel (renderItems items ++ ']' :: rest) = some (items, rest) := by
  induction items generalizing fuel with
  | nil => contradiction
  | cons v items ih =>
    obtain ⟨first, others⟩ := List.forall_mem_cons.1 each
    cases fuel with
    | zero => omega
    | succ fuel =>
      cases items with
      | nil =>
        rw [renderItems] at enough ⊢
        have read := first fuel (']' :: rest) (by omega) (Number.stops_cons (by decide) rest)
        have close : skipSpace (']' :: rest) = ']' :: rest := skipSpace_cons (by decide)
        simp [items?, read, close]
      | cons w items =>
        rw [renderItems, List.length_append, List.length_cons] at enough
        have later := ih (List.cons_ne_nil w items) others (show _ < fuel by omega)
        rw [renderItems, List.append_assoc, List.cons_append]
        generalize renderItems (w :: items) ++ ']' :: rest = tail at later ⊢
        have read := first fuel (',' :: tail) (by omega) (Number.stops_cons (by decide) tail)
        have comma : skipSpace (',' :: tail) = ',' :: tail := skipSpace_cons (by decide)
        simp [items?, read, comma, later]

theorem members?_renderMembers {members : List (List Char × Value)} (filled : members ≠ [])
    (keys : ∀ m ∈ members, ∃ s, m.1 = Quoted.escape s) (each : ∀ m ∈ members, m.2.Reads)
    {fuel : Nat} (enough : 2 * (renderMembers members).length < fuel) (rest : List Char) :
    Json.members? fuel (renderMembers members ++ '\x7d' :: rest) = some (members, rest) := by
  induction members generalizing fuel with
  | nil => contradiction
  | cons m members ih =>
    obtain ⟨k, v⟩ := m
    have first : v.Reads := each (k, v) List.mem_cons_self
    have others := (List.forall_mem_cons.1 each).2
    obtain ⟨⟨s, rfl⟩, otherKeys⟩ := List.forall_mem_cons.1 keys
    cases fuel with
    | zero => omega
    | succ fuel =>
      have quote : ∀ tail, skipSpace ('"' :: tail) = '"' :: tail :=
        fun tail => skipSpace_cons (by decide)
      have colon : ∀ tail, skipSpace (':' :: tail) = ':' :: tail :=
        fun tail => skipSpace_cons (by decide)
      cases members with
      | nil =>
        rw [renderMembers] at enough ⊢
        simp only [List.cons_append, List.append_assoc, List.length_cons,
          List.length_append] at enough ⊢
        have read := first fuel ('\x7d' :: rest) (by omega) (Number.stops_cons (by decide) rest)
        have close : skipSpace ('\x7d' :: rest) = '\x7d' :: rest := skipSpace_cons (by decide)
        simp [Json.members?, quote, Quoted.body?_escape, colon, read, close]
      | cons n members =>
        rw [renderMembers] at enough ⊢
        simp only [List.cons_append, List.append_assoc, List.length_cons,
          List.length_append] at enough ⊢
        have later := ih (List.cons_ne_nil n members) otherKeys others (show _ < fuel by omega)
        generalize renderMembers (n :: members) ++ '\x7d' :: rest = tail at later ⊢
        have read := first fuel (',' :: tail) (by omega) (Number.stops_cons (by decide) tail)
        have comma : skipSpace (',' :: tail) = ',' :: tail := skipSpace_cons (by decide)
        simp [Json.members?, quote, Quoted.body?_escape, colon, read, comma, later]

theorem renderItems_eq_cons {v : Value} (h : Written v) (items : List Value) :
    ∃ c w, renderItems (v :: items) = c :: w ∧ isSpace c = false ∧ c ≠ ']' := by
  obtain ⟨c, w, written, notSpace, notClose⟩ := h.render_eq_cons
  cases items with
  | nil => exact ⟨c, w, by rw [renderItems, written], notSpace, notClose⟩
  | cons u items => exact ⟨c, _, by rw [renderItems, written, List.cons_append], notSpace, notClose⟩

theorem renderMembers_eq_cons (m : List Char × Value) (members : List (List Char × Value)) :
    ∃ w, renderMembers (m :: members) = '"' :: w := by
  cases members <;> exact ⟨_, rfl⟩

theorem value?_digit (fuel : Nat) {c : Char} (digit : Number.isDigit c) (s : List Char) :
    value? (fuel + 1) (c :: s) = (Number.read? (c :: s)).map fun (w, rest) => (.num w, rest) := by
  have differ : ∀ d, Number.isDigit d = false → c ≠ d := fun d => Number.ne_of_isDigit digit
  rw [value?, skipSpace_cons (isSpace_of_isDigit digit)]
  split
  · next same => exact absurd (List.cons.inj same).1 (differ '"' (by decide))
  · next same => exact absurd (List.cons.inj same).1 (differ '[' (by decide))
  · next same => exact absurd (List.cons.inj same).1 (differ '\x7b' (by decide))
  · exact plain?_digit digit s

theorem value?_quote (fuel : Nat) (s : List Char) :
    value? (fuel + 1) ('"' :: s) = (Quoted.body? s).map fun (w, rest) => (.str w, rest) := by
  rw [value?, skipSpace_cons (by decide)]
  rfl

theorem value?_bracket (fuel : Nat) {c : Char} (notSpace : isSpace c = false) (notClose : c ≠ ']')
    (s : List Char) :
    value? (fuel + 1) ('[' :: c :: s) =
      (items? fuel (c :: s)).map fun (vs, rest) => (.arr vs, rest) := by
  rw [value?, skipSpace_cons (by decide)]
  simp only [skipSpace_cons notSpace]
  split
  · next same => exact absurd (List.cons.inj same).1 notClose
  · rfl

theorem value?_brace (fuel : Nat) (s : List Char) :
    value? (fuel + 1) ('\x7b' :: '"' :: s) =
      (Json.members? fuel ('"' :: s)).map fun (ms, rest) => (.obj ms, rest) := by
  rw [value?, skipSpace_cons (by decide)]
  simp only [skipSpace_cons (show isSpace '"' = false by decide)]
  rfl

theorem Written.exists_fuel {v : Value} (h : Written v) {fuel : Nat}
    (enough : 2 * v.render.length ≤ fuel) : ∃ n, fuel = n + 1 := by
  obtain ⟨c, w, written, _⟩ := h.render_eq_cons
  rw [written, List.length_cons] at enough
  exact ⟨fuel - 1, by omega⟩

/-- Twice the length of a written tree is fuel enough to read it. -/
theorem Written.reads {v : Value} (h : Written v) : v.Reads := by
  induction h with
  | null =>
    intro fuel rest enough stops
    obtain ⟨fuel, rfl⟩ := Written.null.exists_fuel enough
    rfl
  | bool b =>
    intro fuel rest enough stops
    obtain ⟨fuel, rfl⟩ := (Written.bool b).exists_fuel enough
    cases b <;> rfl
  | num n =>
    intro fuel rest enough stops
    obtain ⟨fuel, rfl⟩ := (Written.num n).exists_fuel enough
    obtain ⟨c, w, written, digit, _⟩ := Number.write_eq_cons n
    have read := Number.read?_write n stops
    rw [render]
    rw [written, List.cons_append] at read ⊢
    rw [value?_digit fuel digit, read, Option.map_some]
  | str s =>
    intro fuel rest enough stops
    obtain ⟨fuel, rfl⟩ := (Written.str s).exists_fuel enough
    rw [render, List.cons_append, List.cons_append, List.append_assoc, List.singleton_append,
      value?_quote, Quoted.body?_escape, Option.map_some]
  | @arr items each ih =>
    intro fuel rest enough stops
    obtain ⟨fuel, rfl⟩ := (Written.arr each).exists_fuel enough
    cases items with
    | nil => rfl
    | cons v items =>
      have budget : 2 * (renderItems (v :: items)).length < fuel := by
        simp only [render, List.cons_append, List.length_cons, List.length_append,
          List.length_nil] at enough
        omega
      have read := items?_renderItems (List.cons_ne_nil v items) ih budget rest
      obtain ⟨c, w, written, notSpace, notClose⟩ :=
        renderItems_eq_cons (each v List.mem_cons_self) items
      rw [render, List.cons_append, List.cons_append, List.append_assoc, List.singleton_append]
      rw [written, List.cons_append] at read ⊢
      rw [value?_bracket fuel notSpace notClose, read, Option.map_some]
  | @obj members keys each ih =>
    intro fuel rest enough stops
    obtain ⟨fuel, rfl⟩ := (Written.obj keys each).exists_fuel enough
    cases members with
    | nil => rfl
    | cons m members =>
      have budget : 2 * (renderMembers (m :: members)).length < fuel := by
        simp only [render, List.cons_append, List.length_cons, List.length_append,
          List.length_nil] at enough
        omega
      have read := members?_renderMembers (List.cons_ne_nil m members) keys ih budget rest
      obtain ⟨w, written⟩ := renderMembers_eq_cons m members
      rw [render, List.cons_append, List.cons_append, List.append_assoc, List.singleton_append]
      rw [written, List.cons_append] at read ⊢
      rw [value?_brace, read, Option.map_some]

theorem Written.read?_render {v : Value} (h : Written v) : read? v.render = some v := by
  have stops : Number.Stops [] := by
    intro c member
    simp at member
  have read := h.reads (2 * v.render.length + 2) [] (by omega) stops
  rw [List.append_nil] at read
  rw [read?, read]
  rfl

theorem Written.read?_toText {v : Value} (h : Written v) : read? v.toText.toList = some v := by
  rw [toText, String.toList_ofList, h.read?_render]

end Value
end CodeAtlas.Json
