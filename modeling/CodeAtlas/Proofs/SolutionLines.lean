import CodeAtlas.Proofs.TextParts
import CodeAtlas.Solution
import Mathlib.Data.List.Basic

/-!
Solutions line by line. An entry is made of parts: words, some of them after blanks, and fields that
go on up to a mark. Blanks and fields may run over the end of a line, so a line that breaks off in
one of them can take the lines after it into its entry. Any other line is read as if it stood alone.
-/
namespace CodeAtlas
open Text

namespace Solution

inductive Part where
  | word (text : List Char)
  | spaced (text : List Char)
  | field (stop : Char)

/-- The texts that are made of the given parts, with what stands in their fields. -/
inductive Consists : List Part → List Char → List (List Char) → Prop where
  | nil : Consists [] [] []
  | word {parts : List Part} {s : List Char} {fields : List (List Char)} (text : List Char) :
      Consists parts s fields → Consists (.word text :: parts) (text ++ s) fields
  | spaced {parts : List Part} {gap s : List Char} {fields : List (List Char)} (text : List Char) :
      (∀ c ∈ gap, isBlank c) → Consists parts s fields →
      Consists (.spaced text :: parts) (gap ++ (text ++ s)) fields
  | field {parts : List Part} {value s : List Char} {fields : List (List Char)} {stop : Char} :
      stop ∉ value → Consists parts s fields →
      Consists (.field stop :: parts) (value ++ stop :: s) (value :: fields)

def body : List Part :=
  [.field '\x7d', .word "\")".toList, .spaced ['='], .spaced ['"'], .field '"', .spaced [','],
    .spaced ['"'], .field '"']

def entryParts : List Part := .spaced opening :: body

/-- Only blanks and fields run over line feeds, blanks before a word end where it begins, and any
field can end like the path of a project. -/
def Part.isPlain : Part → Bool
  | .word text => !text.contains '\n'
  | .spaced text => !text.contains '\n' && text.head?.any fun c => !isBlank c
  | .field stop => !"\n.csproj".toList.contains stop

section Reading
variable {parts : List Part} {s t rest : List Char} {fields : List (List Char)} {e : Entry}

def read : List Part → List Char → Option (List (List Char) × List Char)
  | [], s => some ([], s)
  | .word text :: parts, s => (after? text s).bind (read parts)
  | .spaced text :: parts, s => (afterBlanks? text s).bind (read parts)
  | .field stop :: parts, s =>
    (cutFirst? stop s).bind fun (value, s) =>
      (read parts s).map fun (fields, s) => (value :: fields, s)

theorem afterBlanks?_eq_some_iff {text : List Char} (h : (Part.spaced text).isPlain) :
    afterBlanks? text s = some t ↔ ∃ gap, (∀ c ∈ gap, isBlank c) ∧ s = gap ++ (text ++ t) := by
  rw [afterBlanks?, after?_eq_some_iff]
  constructor
  · intro found
    refine ⟨s.takeWhile isBlank, ?_, ?_⟩
    · intro c member
      exact List.mem_takeWhile_imp member
    · rw [← found, List.takeWhile_append_dropWhile]
  · rintro ⟨gap, blank, rfl⟩
    rw [List.dropWhile_append_of_pos blank]
    cases text with
    | nil => simp [Part.isPlain] at h
    | cons c text =>
      have filled : isBlank c = false := by
        simp only [Part.isPlain, Bool.and_eq_true, List.head?_cons, Option.any_some] at h
        simpa using h.2
      rw [List.cons_append, List.dropWhile_cons_of_neg (by simp [filled])]

/-- Reading finds a text of the given parts at the start, and nothing else. -/
theorem read_eq_some_iff (plain : ∀ part ∈ parts, part.isPlain) :
    read parts s = some (fields, rest) ↔
      ∃ front, Consists parts front fields ∧ s = front ++ rest := by
  induction parts generalizing s fields with
  | nil =>
    constructor
    · intro found
      obtain ⟨rfl, rfl⟩ := Prod.mk.inj (Option.some.inj found)
      exact ⟨[], .nil, rfl⟩
    · rintro ⟨front, ⟨⟩, rfl⟩
      rfl
  | cons part parts ih =>
    obtain ⟨first, others⟩ := List.forall_mem_cons.1 plain
    cases part with
    | word text =>
      simp only [read, Option.bind_eq_some_iff, after?_eq_some_iff, ih others]
      constructor
      · rintro ⟨_, rfl, front, consists, rfl⟩
        exact ⟨text ++ front, .word text consists, by simp⟩
      · rintro ⟨_, consists, rfl⟩
        cases consists with
        | word _ consists => exact ⟨_, by simp, _, consists, rfl⟩
    | spaced text =>
      simp only [read, Option.bind_eq_some_iff, afterBlanks?_eq_some_iff first, ih others]
      constructor
      · rintro ⟨_, ⟨gap, blank, rfl⟩, front, consists, rfl⟩
        exact ⟨gap ++ (text ++ front), .spaced text blank consists, by simp⟩
      · rintro ⟨_, consists, rfl⟩
        cases consists with
        | spaced _ blank consists => exact ⟨_, ⟨_, blank, by simp⟩, _, consists, rfl⟩
    | field stop =>
      simp only [read, Option.bind_eq_some_iff, Prod.exists, cutFirst?_eq_some_iff,
        Option.map_eq_some_iff, Prod.mk.injEq]
      constructor
      · rintro ⟨value, _, ⟨free, rfl⟩, fields, _, found, rfl, rfl⟩
        obtain ⟨front, consists, rfl⟩ := (ih others).1 found
        exact ⟨value ++ stop :: front, .field free consists, by simp⟩
      · rintro ⟨_, consists, rfl⟩
        cases consists with
        | field free consists =>
          exact ⟨_, _, ⟨free, by simp⟩, _, _, (ih others).2 ⟨_, consists, rfl⟩, rfl, rfl⟩

theorem after?_closing (s : List Char) :
    after? closing (s.dropWhile (· != '\x7d')) =
      (cutFirst? '\x7d' s).bind fun (_, s) => after? "\")".toList s := by
  induction s with
  | nil => rfl
  | cons c s ih =>
    by_cases same : c = '\x7d'
    · rw [same]
      rfl
    · rw [List.dropWhile_cons_of_pos (by simpa using same), ih, cutFirst?, if_neg same]
      cases cutFirst? '\x7d' s <;> rfl

def entryOf? : List (List Char) → Option Entry
  | [_, name, path] => some ⟨trim name, trim path⟩
  | _ => none

theorem entryAt?_eq_read (s : List Char) :
    entryAt? s =
      (read entryParts s).bind fun (fields, rest) => (entryOf? fields).map (·, rest) := by
  simp only [entryAt?, after?_closing, entryParts, body, read, Option.bind_eq_bind,
    Option.bind_assoc, Option.bind_map, Option.bind_some, Option.map_some, Function.comp_def,
    entryOf?, Option.pure_def]

theorem entryAt?_eq_some_iff :
    entryAt? s = some (e, rest) ↔ ∃ front kind name path,
      Consists entryParts front [kind, name, path] ∧ s = front ++ rest ∧
        e = ⟨trim name, trim path⟩ := by
  have plain : ∀ part ∈ entryParts, part.isPlain := by decide
  simp only [entryAt?_eq_read, Option.bind_eq_some_iff, Prod.exists, read_eq_some_iff plain,
    Option.map_eq_some_iff, Prod.mk.injEq]
  constructor
  · rintro ⟨fields, _, ⟨front, consists, rfl⟩, _, found, rfl, rfl⟩
    match fields, found with
    | [kind, name, path], found => exact ⟨_, _, _, _, consists, rfl, (Option.some.inj found).symm⟩
  · rintro ⟨front, kind, name, path, consists, rfl, rfl⟩
    exact ⟨_, _, ⟨front, consists, rfl⟩, _, rfl, rfl, rfl⟩

theorem entryAt?_append (found : entryAt? s = some (e, rest)) (t : List Char) :
    entryAt? (s ++ t) = some (e, rest ++ t) := by
  obtain ⟨front, kind, name, path, consists, rfl, same⟩ := entryAt?_eq_some_iff.1 found
  exact entryAt?_eq_some_iff.2 ⟨front, kind, name, path, consists, List.append_assoc .., same⟩

theorem entryAt?_blank {gap : List Char} (blank : ∀ c ∈ gap, isBlank c) (s : List Char) :
    entryAt? (gap ++ s) = entryAt? s := by
  simp only [entryAt?, afterBlanks?, List.dropWhile_append_of_pos blank]

end Reading

section Lines
variable {line : List Char} {next : Option (List Char)} {e : Entry}

def ended (line : List Char) (next : Option (List Char)) : List Char :=
  line ++ next.elim [] ('\n' :: ·)

def resume (next : Option (List Char)) : List Entry := next.elim [] entries

theorem nextLine?_ended (free : '\n' ∉ line) (next : Option (List Char)) :
    nextLine? (ended line next) = next := by
  cases next with
  | none =>
    rw [ended, nextLine?, Option.elim_none, List.append_nil, cutFirst?_eq_none free]
    rfl
  | some rest =>
    rw [ended, nextLine?, Option.elim_some, cutFirst?_append free]
    rfl

theorem entries_eq (s : List Char) :
    entries s = match entryAt? s with
      | some (e, rest) => e :: resume (nextLine? rest)
      | none => resume (nextLine? s) := by
  rw [entries]
  split
  · next e rest found =>
    rw [found]
    dsimp only
    cases nextLine? rest <;> rfl
  · next found =>
    rw [found]
    cases nextLine? s <;> rfl

theorem entries_skip (free : '\n' ∉ line) (none : entryAt? (ended line next) = none) :
    entries (ended line next) = resume next := by
  rw [entries_eq, none]
  dsimp only
  rw [nextLine?_ended free]

theorem entries_eq_nil (free : '\n' ∉ line) (none : entryAt? line = none) : entries line = [] := by
  rw [entries_eq, none]
  dsimp only
  rw [nextLine?, cutFirst?_eq_none free]
  rfl

theorem entries_take {rest : List Char} (free : '\n' ∉ rest)
    (found : entryAt? (ended line next) = some (e, ended rest next)) :
    entries (ended line next) = e :: resume next := by
  rw [entries_eq, found]
  dsimp only
  rw [nextLine?_ended free]

/-- A blank line belongs to the entry after it, if there is one. -/
theorem entries_blank (free : '\n' ∉ line) (blank : ∀ c ∈ line, isBlank c) :
    entries (ended line next) = resume next := by
  cases next with
  | none => exact entries_skip free (entryAt?_blank blank [])
  | some rest =>
    have wider : ∀ c ∈ line ++ ['\n'], isBlank c := by
      simpa [or_imp, forall_and] using ⟨blank, rfl⟩
    have same : entryAt? (ended line (some rest)) = entryAt? rest := by
      have whole := entryAt?_blank wider rest
      rwa [List.append_assoc] at whole
    cases found : entryAt? rest with
    | none => exact entries_skip free (same.trans found)
    | some entry =>
      change _ = entries rest
      rw [entries_eq, entries_eq, same, found]

end Lines

section Breaking
variable {parts : List Part} {s t line : List Char} {fields : List (List Char)}

theorem split_at {front back : List Char} {a : Char} (h : front ++ back = s ++ a :: t) :
    (∃ u, front = s ++ a :: u ∧ t = u ++ back) ∨ ∃ u, s = front ++ u ∧ back = u ++ a :: t := by
  rcases List.append_eq_append_iff.1 h with ⟨u, rfl, same⟩ | ⟨u, rfl, same⟩
  · exact .inr ⟨u, rfl, same⟩
  · cases u with
    | nil => exact .inr ⟨[], by simp, same.symm⟩
    | cons b u =>
      obtain ⟨rfl, rfl⟩ := List.cons.inj same
      exact .inl ⟨u, rfl, rfl⟩

/-- A text of the given parts has begun and is not complete: it ends in blanks or in a field. -/
def runsOut : List Part → List Char → Bool
  | [], _ => false
  | .word text :: parts, s => (after? text s).any (runsOut parts)
  | .spaced text :: parts, s => s.all isBlank || (afterBlanks? text s).any (runsOut parts)
  | .field stop :: parts, s => (cutFirst? stop s).all fun (_, s) => runsOut parts s

/-- The line opens an entry that can go on in the next line. -/
def breaksOff (line : List Char) : Bool := (afterBlanks? opening line).any (runsOut body)

theorem runsOut_of_consists (plain : ∀ part ∈ parts, part.isPlain)
    (h : Consists parts (s ++ '\n' :: t) fields) : runsOut parts s := by
  generalize whole : s ++ '\n' :: t = text at h
  induction h generalizing s with
  | nil => simp at whole
  | word text consists ih =>
    obtain ⟨first, others⟩ := List.forall_mem_cons.1 plain
    rcases split_at whole.symm with ⟨u, rfl, _⟩ | ⟨u, rfl, same⟩
    · simp [Part.isPlain] at first
    · rw [runsOut, after?_append]
      exact ih others same.symm
  | spaced text blank consists ih =>
    obtain ⟨first, others⟩ := List.forall_mem_cons.1 plain
    rcases split_at whole.symm with ⟨u, rfl, _⟩ | ⟨u, rfl, same⟩
    · have early : s.all isBlank := by
        rw [List.all_eq_true]
        intro c member
        exact blank c (List.mem_append_left _ member)
      rw [runsOut, early, Bool.true_or]
    · rcases split_at same with ⟨v, rfl, _⟩ | ⟨v, rfl, inner⟩
      · simp [Part.isPlain] at first
      · rw [runsOut, (afterBlanks?_eq_some_iff first).2 ⟨_, blank, rfl⟩, Option.any_some,
          ih others inner.symm, Bool.or_true]
  | field free consists ih =>
    obtain ⟨first, others⟩ := List.forall_mem_cons.1 plain
    rw [runsOut]
    rcases split_at whole.symm with ⟨u, rfl, _⟩ | ⟨u, rfl, same⟩
    · rw [cutFirst?_eq_none fun member => free (List.mem_append_left _ member)]
      rfl
    · cases u with
      | nil =>
        obtain ⟨rfl, _⟩ := List.cons.inj same
        simp [Part.isPlain] at first
      | cons stop u =>
        obtain ⟨rfl, inner⟩ := List.cons.inj same
        rw [cutFirst?_append free]
        exact ih others inner.symm

/-- An entry that runs over the end of a line begins in a blank line or in one that breaks off. -/
theorem breaksOff_of_consists (h : Consists entryParts (line ++ '\n' :: t) fields) :
    (∀ c ∈ line, isBlank c) ∨ breaksOff line := by
  have out := runsOut_of_consists (by decide) h
  rw [entryParts, runsOut, Bool.or_eq_true, List.all_eq_true] at out
  exact out

theorem entries_line (free : '\n' ∉ line) (whole : ¬ breaksOff line) (rest : List Char) :
    entries (line ++ '\n' :: rest) = entries line ++ entries rest := by
  have alone : entries line = entries (ended line none) := by rw [ended]; simp
  change entries (ended line (some rest)) = entries line ++ resume (some rest)
  rw [alone]
  by_cases blank : ∀ c ∈ line, isBlank c
  · rw [entries_blank free blank, entries_blank free blank]
    rfl
  · cases found : entryAt? (ended line (some rest)) with
    | none =>
      have nothing : entryAt? (ended line none) = none := by
        rw [Option.eq_none_iff_forall_ne_some]
        rintro ⟨e, r⟩ here
        have more := entryAt?_append here ('\n' :: rest)
        simp only [ended, Option.elim_none, List.append_nil, Option.elim_some] at more found
        rw [found] at more
        cases more
      rw [entries_skip free found, entries_skip free nothing]
      rfl
    | some result =>
      obtain ⟨e, r⟩ := result
      obtain ⟨front, kind, name, path, consists, same, rfl⟩ := entryAt?_eq_some_iff.1 found
      rcases split_at same.symm with ⟨u, rfl, _⟩ | ⟨u, rfl, rfl⟩
      · exact absurd (breaksOff_of_consists consists) (not_or.2 ⟨blank, whole⟩)
      · have inner : '\n' ∉ u := fun member => free (List.mem_append_right front member)
        have here : entryAt? (ended (front ++ u) none) =
            some (⟨trim name, trim path⟩, ended u none) :=
          entryAt?_eq_some_iff.2 ⟨front, kind, name, path, consists, by simp [ended], rfl⟩
        rw [entries_take inner found, entries_take inner here]
        rfl

end Breaking

section Endings
variable {parts : List Part} {s t line : List Char} {fields : List (List Char)}

def sample : List Part → List Char
  | [] => []
  | .word text :: parts => text ++ sample parts
  | .spaced text :: parts => text ++ sample parts
  | .field stop :: parts => ".csproj".toList ++ stop :: sample parts

/-- How a text of the given parts can go on after a line feed in it, for each part that may hold
one. -/
def endings : List Part → List (List Char)
  | [] => []
  | .word _ :: parts => endings parts
  | part :: parts => sample (part :: parts) :: endings parts

def Part.isField : Part → Bool
  | .field _ => true
  | _ => false

theorem Consists.length_eq {text : List Char} (h : Consists parts text fields) :
    fields.length = parts.countP Part.isField := by
  induction h with
  | nil => rfl
  | word text _ ih => rw [ih, List.countP_cons_of_neg (by simp [Part.isField])]
  | spaced text _ _ ih => rw [ih, List.countP_cons_of_neg (by simp [Part.isField])]
  | field _ _ ih => rw [List.length_cons, ih, List.countP_cons_of_pos (by rfl)]

def Closed (parts : List Part) : Prop := parts.getLast?.any Part.isField

theorem Closed.tail {part : Part} (h : Closed (part :: parts)) (plain : part.isField = false) :
    Closed parts := by
  cases parts with
  | nil => exact absurd (plain.symm.trans h) (by decide)
  | cons second others => exact h

def ForProject (fields : List (List Char)) : Prop :=
  ∃ value, fields.getLast? = some value ∧ ".csproj".toList <:+ value

theorem forProject_of_forall (filled : fields ≠ [])
    (h : ∀ value ∈ fields, ".csproj".toList <:+ value) : ForProject fields :=
  ⟨fields.getLast filled, List.getLast?_eq_some_getLast filled, h _ (List.getLast_mem filled)⟩

theorem ForProject.cons (h : ForProject fields) (value : List Char) :
    ForProject (value :: fields) := by
  obtain ⟨last, found, project⟩ := h
  exact ⟨last, by rw [List.getLast?_cons, found]; rfl, project⟩

theorem consists_sample (plain : ∀ part ∈ parts, part.isPlain) :
    ∃ fields, Consists parts (sample parts) fields ∧
      (∀ value ∈ fields, ".csproj".toList <:+ value) ∧ (Closed parts → fields ≠ []) := by
  induction parts with
  | nil => exact ⟨[], .nil, by simp, fun closed => nomatch closed⟩
  | cons part parts ih =>
    obtain ⟨first, others⟩ := List.forall_mem_cons.1 plain
    obtain ⟨fields, consists, projects, filled⟩ := ih others
    cases part with
    | word text =>
      exact ⟨fields, .word text consists, projects, fun closed => filled (closed.tail rfl)⟩
    | spaced text =>
      have gapless : ∀ c ∈ ([] : List Char), isBlank c := by simp
      have whole := Consists.spaced text gapless consists
      exact ⟨fields, whole, projects, fun closed => filled (closed.tail rfl)⟩
    | field stop =>
      have free : stop ∉ ".csproj".toList := by
        simp [Part.isPlain] at first ⊢
        grind
      refine ⟨".csproj".toList :: fields, .field free consists, ?_, by simp⟩
      exact List.forall_mem_cons.2 ⟨List.suffix_refl _, projects⟩

theorem exists_ending (plain : ∀ part ∈ parts, part.isPlain) (closed : Closed parts)
    (out : runsOut parts s) :
    ∃ next ∈ endings parts, ∃ fields, Consists parts (s ++ '\n' :: next) fields ∧
      ForProject fields := by
  induction parts generalizing s with
  | nil => cases out
  | cons part parts ih =>
    obtain ⟨first, others⟩ := List.forall_mem_cons.1 plain
    obtain ⟨fields, consists, projects, filled⟩ := consists_sample others
    cases part with
    | word text =>
      obtain ⟨t, found, out⟩ := (Option.any_eq_true _ _).1 out
      obtain ⟨next, listed, fields, consists, project⟩ := ih others (closed.tail rfl) out
      obtain rfl := after?_eq_some_iff.1 found
      exact ⟨next, listed, fields, by rw [List.append_assoc]; exact .word text consists, project⟩
    | spaced text =>
      rw [runsOut, Bool.or_eq_true, List.all_eq_true] at out
      rcases out with blank | later
      · have wider : ∀ c ∈ s ++ ['\n'], isBlank c := by
          simpa [or_imp, forall_and] using ⟨blank, rfl⟩
        have whole := Consists.spaced text wider consists
        rw [List.append_assoc] at whole
        exact ⟨_, List.mem_cons_self, fields, whole,
          forProject_of_forall (filled (closed.tail rfl)) projects⟩
      · obtain ⟨t, found, out⟩ := (Option.any_eq_true _ _).1 later
        obtain ⟨next, listed, fields, consists, project⟩ := ih others (closed.tail rfl) out
        obtain ⟨gap, blank, rfl⟩ := (afterBlanks?_eq_some_iff first).1 found
        have whole := Consists.spaced text blank consists
        rw [← List.append_assoc text, ← List.append_assoc gap] at whole
        exact ⟨next, List.mem_cons_of_mem _ listed, fields, whole, project⟩
    | field stop =>
      rw [runsOut] at out
      cases found : cutFirst? stop s with
      | none =>
        have free : stop ∉ s ++ "\n.csproj".toList := by
          have early : stop ∉ s := by
            intro member
            obtain ⟨before, after, rfl, free⟩ := List.eq_append_cons_of_mem member
            rw [cutFirst?_append free] at found
            cases found
          simpa [Part.isPlain, early] using first
        have whole := Consists.field free consists
        rw [List.append_assoc] at whole
        refine ⟨_, List.mem_cons_self, _, whole, forProject_of_forall (by simp) ?_⟩
        refine List.forall_mem_cons.2 ⟨⟨s ++ ['\n'], by simp⟩, projects⟩
      | some cut =>
        obtain ⟨value, t⟩ := cut
        rw [found] at out
        obtain ⟨free, rfl⟩ := cutFirst?_eq_some_iff.1 found
        have later : Closed parts := by
          cases parts with
          | nil => cases out
          | cons second others => exact closed
        obtain ⟨next, listed, fields, consists, project⟩ := ih others later out
        have whole := Consists.field free consists
        rw [← List.cons_append, ← List.append_assoc] at whole
        exact ⟨next, List.mem_cons_of_mem _ listed, _, whole, project.cons value⟩

end Endings

section Projects
variable {line path : List Char}

theorem toLower_eq_dot {c : Char} (h : c.toLower = '.') : c = '.' := by
  unfold Char.toLower at h
  split at h
  · next upper =>
    -- a letter that is changed is not changed into a full stop
    have value : c.val + ('a'.val - 'A'.val) = '.'.val := congrArg Char.val h
    obtain ⟨low, high⟩ := upper
    rw [ge_iff_le, UInt32.le_iff_toNat_le] at low
    rw [UInt32.le_iff_toNat_le] at high
    have sum := congrArg UInt32.toNat value
    rw [UInt32.toNat_add] at sum
    simp at sum low high
    omega
  · exact h

theorem isProject_iff : isProject path ↔ ".csproj".toList <:+ path.map Char.toLower := by
  constructor
  · intro project
    rw [isProject] at project
    split at project
    · next front extension found =>
      obtain ⟨_, rfl⟩ := cutLast?_eq_some_iff.1 found
      rw [sameName, beq_iff_eq] at project
      refine ⟨front.map Char.toLower, ?_⟩
      rw [List.map_append, List.map_cons, project]
      rfl
    · cases project
  · rintro ⟨front, whole⟩
    obtain ⟨before, last, rfl, _, ending⟩ := List.map_eq_append_iff.1 whole.symm
    obtain ⟨c, extension, rfl, dot, word⟩ := List.map_eq_cons_iff.1 ending
    obtain rfl := toLower_eq_dot dot
    have free : '.' ∉ extension := by
      intro member
      have lower := List.mem_map_of_mem (f := Char.toLower) member
      rw [word] at lower
      exact absurd lower (by decide)
    rw [isProject, cutLast?_eq_some_iff.2 ⟨free, rfl⟩]
    dsimp only
    rw [sameName, word]
    rfl

theorem isProject_trim (h : ".csproj".toList <:+ path) : isProject (trim path) := by
  obtain ⟨front, rfl⟩ := h
  have left : (front ++ ".csproj".toList).dropWhile isBlank =
      front.dropWhile isBlank ++ ".csproj".toList := by
    rw [List.dropWhile_append]
    split
    · next blank =>
      rw [List.isEmpty_iff.1 blank]
      rfl
    · rfl
  have right : ((front.dropWhile isBlank ++ ".csproj".toList).reverse).dropWhile isBlank =
      (front.dropWhile isBlank ++ ".csproj".toList).reverse := by
    rw [List.reverse_append]
    rfl
  rw [trim, trimBy, left, right, List.reverse_reverse, isProject_iff, List.map_append]
  exact ⟨_, rfl⟩

def chosen (directory : Path) (found : List Entry) : List Listed :=
  (found.filter fun e => isProject e.path).map fun e =>
    ⟨String.ofList e.name, directory.resolve e.path⟩

theorem projects_value (text : List Char) (directory : Path) :
    (projects text directory).value = chosen directory (entries text) := rfl

theorem chosen_append (directory : Path) (found more : List Entry) :
    chosen directory (found ++ more) = chosen directory found ++ chosen directory more := by
  simp [chosen]

theorem projects_line (free : '\n' ∉ line) (whole : ¬ breaksOff line) (rest : List Char)
    (directory : Path) :
    (projects (line ++ '\n' :: rest) directory).value =
      (projects line directory).value ++ (projects rest directory).value := by
  rw [projects_value, entries_line free whole, chosen_append]
  rfl

theorem projects_lines {lines : List (List Char)} (filled : lines ≠ [])
    (free : ∀ line ∈ lines, '\n' ∉ line) (whole : ∀ line ∈ lines, ¬ breaksOff line)
    (rest : List Char) (directory : Path) :
    (projects (['\n'].intercalate lines ++ '\n' :: rest) directory).value =
      (lines.flatMap fun line => (projects line directory).value) ++
        (projects rest directory).value := by
  induction lines with
  | nil => exact absurd rfl filled
  | cons first others ih =>
    obtain ⟨firstFree, othersFree⟩ := List.forall_mem_cons.1 free
    obtain ⟨firstWhole, othersWhole⟩ := List.forall_mem_cons.1 whole
    cases others with
    | nil =>
      rw [List.intercalate_singleton, projects_line firstFree firstWhole, List.flatMap_singleton]
    | cons second more =>
      rw [List.intercalate_cons_cons, List.append_assoc, List.append_assoc, List.singleton_append,
        projects_line firstFree firstWhole, ih (by simp) othersFree othersWhole]
      simp only [List.flatMap_cons, List.append_assoc]

/-- After a line that breaks off, a line without an entry can complete one. -/
theorem projects_breaksOff (free : '\n' ∉ line) (broken : breaksOff line) (directory : Path) :
    ∃ next project, (projects (line ++ '\n' :: next) directory).value = [project] ∧
      (projects line directory).value = [] ∧ (projects next directory).value = [] := by
  obtain ⟨s, found, out⟩ := (Option.any_eq_true _ _).1 broken
  obtain ⟨gap, blank, rfl⟩ := (afterBlanks?_eq_some_iff (by decide)).1 found
  obtain ⟨next, listed, fields, consists, last, ends, project⟩ :=
    exists_ending (by decide) (by rfl : Closed body) out
  obtain ⟨kind, name, path, rfl⟩ := List.length_eq_three.1 consists.length_eq
  obtain rfl : path = last := Option.some.inj ends
  have whole : entryAt? (gap ++ (opening ++ s) ++ '\n' :: next) =
      some (⟨trim name, trim path⟩, []) :=
    entryAt?_eq_some_iff.2 ⟨_, kind, name, path, .spaced opening blank consists, by simp, rfl⟩
  have alone : entryAt? (gap ++ (opening ++ s)) = none := by
    rw [Option.eq_none_iff_forall_ne_some]
    rintro ⟨e, rest⟩ here
    have longer := entryAt?_append here ('\n' :: next)
    rw [whole] at longer
    simp at longer
  have idle : ∀ next ∈ endings body, entryAt? next = none ∧ '\n' ∉ next := by decide
  obtain ⟨nothing, single⟩ := idle next listed
  refine ⟨next, ⟨String.ofList (trim name), directory.resolve (trim path)⟩, ?_, ?_, ?_⟩
  · have one : entries (gap ++ (opening ++ s) ++ '\n' :: next) = [⟨trim name, trim path⟩] := by
      rw [entries_eq, whole]
      rfl
    rw [projects_value, one]
    simp [chosen, isProject_trim project]
  · rw [projects_value, entries_eq_nil free alone]
    rfl
  · rw [projects_value, entries_eq_nil single nothing]
    rfl

/-- As long as no line breaks off, a text lists what its lines list by themselves, whatever comes
after them. A line that breaks off can be followed so that this fails. -/
theorem projects_line_by_line (directory : Path) :
    (∀ before rest : List Char, (∀ line ∈ pieces '\n' before, ¬ breaksOff line) →
      (projects (before ++ '\n' :: rest) directory).value =
        ((pieces '\n' before).flatMap fun line => (projects line directory).value) ++
          (projects rest directory).value) ∧
    (∀ text : List Char, (∀ line ∈ (pieces '\n' text).dropLast, ¬ breaksOff line) →
      (projects text directory).value =
        (pieces '\n' text).flatMap fun line => (projects line directory).value) ∧
    ∀ line : List Char, '\n' ∉ line → breaksOff line → ∃ next,
      (projects (line ++ '\n' :: next) directory).value ≠
        (projects line directory).value ++ (projects next directory).value := by
  refine ⟨?_, ?_, ?_⟩
  · intro before rest whole
    have lines := projects_lines (pieces_ne_nil '\n' before)
      (fun line member => notMem_of_mem_pieces member) whole rest directory
    rwa [intercalate_pieces] at lines
  · intro text whole
    have free : ∀ line ∈ pieces '\n' text, '\n' ∉ line := fun line member =>
      notMem_of_mem_pieces member
    have joined := intercalate_pieces '\n' text
    obtain none | ⟨early, last, split⟩ := List.eq_nil_or_concat' (pieces '\n' text)
    · exact absurd none (pieces_ne_nil '\n' text)
    · rw [split] at whole free joined ⊢
      rw [List.dropLast_concat] at whole
      by_cases single : early = []
      · rw [single, List.nil_append, List.intercalate_singleton] at joined
        rw [single, joined, List.nil_append, List.flatMap_singleton]
      · have earlyFree := fun line member => free line (List.mem_append_left _ member)
        have lines := projects_lines single earlyFree whole last directory
        rw [intercalate_concat '\n' single] at joined
        rw [← joined, lines, List.flatMap_append, List.flatMap_singleton]
  · intro line free broken
    obtain ⟨next, project, one, none, nothing⟩ := projects_breaksOff free broken directory
    exact ⟨next, by rw [one, none, nothing]; simp⟩

/-- A line that goes wrong before its end costs itself only, and so does one that breaks off at the
end of the text. -/
theorem missingBracket_costs_itself :
    let damaged := "Project(\"\x7bT\x7d\" = \"A\", \"a.csproj\"".toList
    let whole := "Project(\"\x7bT\x7d\") = \"B\", \"b.csproj\"".toList
    let broken := "Project(\"\x7bT\x7d\") = \"C\", \"c.csproj".toList
    ¬ breaksOff damaged ∧ ¬ breaksOff whole ∧ breaksOff broken ∧
      (projects (damaged ++ '\n' :: whole ++ '\n' :: broken) (.ofString "/w")).value =
        [⟨"B", .ofString "/w/b.csproj"⟩] ∧
      ∃ next, (projects (broken ++ '\n' :: next) (.ofString "/w")).value ≠
        (projects next (.ofString "/w")).value := by
  intro damaged whole broken
  have lines : pieces '\n' (damaged ++ '\n' :: whole ++ '\n' :: broken) =
      [damaged, whole, broken] := by
    decide +kernel
  have fits : ∀ line ∈ [damaged, whole], ¬ breaksOff line := by decide +kernel
  have opened : breaksOff broken := by decide +kernel
  obtain ⟨_, listed, fails⟩ := projects_line_by_line (.ofString "/w")
  have value := listed (damaged ++ '\n' :: whole ++ '\n' :: broken) (by rw [lines]; exact fits)
  rw [lines] at value
  obtain ⟨next, differs⟩ := fails broken (by decide +kernel) opened
  have nothing : (projects broken (.ofString "/w")).value = [] := by decide +kernel
  rw [nothing] at differs
  refine ⟨fits _ (by simp), fits _ (by simp), opened, ?_, next, differs⟩
  rw [value]
  decide +kernel

/-- A path that is left open at the end of a line takes the entry of the next line with it. -/
theorem openPath_hides_next :
    let first := "Project(\"\x7bT\x7d\") = \"A\", \"a.csproj".toList
    let second := "Project(\"\x7bT\x7d\") = \"B\", \"b.csproj\", \"\x7bG\x7d\"".toList
    let text := first ++ '\n' :: second
    (projects text (.ofString "/w")).value = [] ∧
      ((pieces '\n' text).flatMap fun line => (projects line (.ofString "/w")).value) =
        [⟨"B", .ofString "/w/b.csproj"⟩] := by
  decide +kernel

end Projects
end Solution
end CodeAtlas
