import CodeAtlas.Proofs.SolutionLines

/-!
Solutions as they are written. Entries stand among other lines, with any blanks between their words;
what has no part in an entry does not begin one. So reading a written solution gives its entries
back, each once and in order.
-/
namespace CodeAtlas
open Text

namespace Solution

abbrev Blanks := { gap : List Char // ∀ c ∈ gap, isBlank c }

/-- An entry with the blanks between its words. -/
structure Written where
  kind : List Char
  name : List Char
  path : List Char
  guid : List Char
  before : Blanks
  beforeEquals : Blanks
  afterEquals : Blanks
  beforeComma : Blanks
  afterComma : Blanks
  beforeLastComma : Blanks
  afterLastComma : Blanks
  kindFree : '\x7d' ∉ kind
  nameFree : '"' ∉ name
  pathFree : '"' ∉ path
  nameTrimmed : trim name = name
  pathTrimmed : trim path = path
  guidFree : '\n' ∉ guid

namespace Written

def front (w : Written) : List Char :=
  w.before.1 ++ opening ++ w.kind ++ closing ++ w.beforeEquals.1 ++ ['='] ++ w.afterEquals.1 ++
    ['"'] ++ w.name ++ ['"'] ++ w.beforeComma.1 ++ [','] ++ w.afterComma.1 ++
    ['"'] ++ w.path ++ ['"']

def back (w : Written) : List Char :=
  w.beforeLastComma.1 ++ [','] ++ w.afterLastComma.1 ++ ['"', '\x7b'] ++ w.guid ++ ['\x7d', '"']

def text (w : Written) : List Char := w.front ++ w.back

def entry (w : Written) : Entry := ⟨w.name, w.path⟩

theorem consists_front (w : Written) : Consists entryParts w.front [w.kind, w.name, w.path] := by
  have path := Consists.spaced [','] w.beforeComma.2
    (.spaced ['"'] w.afterComma.2 (.field w.pathFree .nil))
  have name := Consists.spaced ['='] w.beforeEquals.2
    (.spaced ['"'] w.afterEquals.2 (.field w.nameFree path))
  have whole := Consists.spaced opening w.before.2 (.field w.kindFree (.word "\")".toList name))
  have closes : closing = '\x7d' :: "\")".toList := rfl
  simp only [front, closes, List.append_assoc, List.cons_append, List.nil_append] at whole ⊢
  exact whole

theorem entryAt?_front (w : Written) (rest : List Char) :
    entryAt? (w.front ++ rest) = some (w.entry, rest) := by
  refine entryAt?_eq_some_iff.2 ⟨_, _, _, _, w.consists_front, rfl, ?_⟩
  rw [w.nameTrimmed, w.pathTrimmed, entry]

end Written

section Opening
variable {line s : List Char} {next : Option (List Char)}

def Opens (line : List Char) : Prop := opening <+: line.dropWhile isBlank

instance (line : List Char) : Decidable (Opens line) :=
  inferInstanceAs (Decidable (opening <+: line.dropWhile isBlank))

theorem entryAt?_eq_none (h : ¬ Opens s) : entryAt? s = none := by
  have none : afterBlanks? opening s = none := by
    rw [afterBlanks?, ← Option.not_isSome_iff_eq_none, after?_isSome_iff]
    exact h
  rw [entryAt?, none]
  rfl

theorem opens_of_append {c : Char} {rest : List Char} (blank : isBlank c)
    (h : Opens (line ++ c :: rest)) : (∀ d ∈ line, isBlank d) ∨ Opens line := by
  rw [Opens, List.dropWhile_append] at h
  split at h
  · next empty =>
    rw [List.isEmpty_iff, List.dropWhile_eq_nil_iff] at empty
    exact .inl empty
  · obtain ⟨t, whole⟩ := h
    rcases split_at whole with ⟨u, broken, _⟩ | ⟨u, same, _⟩
    · have filled : opening.all (fun d => !isBlank d) := by decide
      have shown := List.all_eq_true.1 filled c (by rw [broken]; simp)
      exact absurd blank (by simpa using shown)
    · exact .inr ⟨u, same.symm⟩

theorem opens_of_concat {c : Char} (blank : isBlank c) (h : Opens (line ++ [c])) : Opens line := by
  rcases opens_of_append blank h with blanks | opened
  · have none : (line ++ [c]).dropWhile isBlank = [] := by
      rw [List.dropWhile_append_of_pos blanks, List.dropWhile_cons_of_pos blank, List.dropWhile_nil]
    rw [Opens, none] at h
    exact absurd h (by decide)
  · exact opened

theorem entries_other (single : '\n' ∉ line) (plain : ¬ Opens line) :
    entries (ended line next) = resume next := by
  by_cases blank : ∀ c ∈ line, isBlank c
  · exact entries_blank single blank
  · apply entries_skip single
    apply entryAt?_eq_none
    intro opened
    cases next with
    | none =>
      rw [ended, Option.elim_none, List.append_nil] at opened
      exact plain opened
    | some rest => exact (opens_of_append rfl opened).elim blank plain

/-- After each line feed comes, blanks apart, a character that opens no entry. -/
def Idle (s : List Char) : Prop :=
  ∀ u v, s = u ++ '\n' :: v → ∃ c rest, v.dropWhile isBlank = c :: rest ∧ c ≠ 'P'

theorem resume_idle (idle : Idle s) : resume (nextLine? (ended s next)) = resume next := by
  induction size : s.length using Nat.strong_induction_on generalizing s with
  | _ bound ih =>
    by_cases single : '\n' ∈ s
    · obtain ⟨u, v, rfl, free⟩ := List.eq_append_cons_of_mem single
      have later : Idle v := by
        intro u' v' split
        exact idle (u ++ '\n' :: u') v' (by rw [split]; simp)
      have none : entryAt? (ended v next) = none := by
        apply entryAt?_eq_none
        obtain ⟨c, rest, first, plain⟩ := idle u v rfl
        rw [Opens, ended, List.dropWhile_append, first]
        rintro ⟨t, whole⟩
        exact plain (List.cons.inj whole).1.symm
      have cut : ended (u ++ '\n' :: v) next = ended u (some (ended v next)) := by simp [ended]
      have less : v.length < bound := by
        rw [← size, List.length_append, List.length_cons]
        omega
      rw [cut, nextLine?_ended free]
      change entries (ended v next) = resume next
      rw [entries_eq, none]
      exact ih v.length less later rfl
    · rw [nextLine?_ended single]

theorem dropWhile_after_break {gap u v rest : List Char} {c : Char} (blank : ∀ d ∈ gap, isBlank d)
    (filled : ¬ isBlank c) (split : gap ++ c :: rest = u ++ '\n' :: v) :
    v.dropWhile isBlank = c :: rest ∨ ∃ u', rest = u' ++ '\n' :: v := by
  rcases split_at split with ⟨w, rfl, rfl⟩ | ⟨w, rfl, same⟩
  · left
    have later : ∀ d ∈ w, isBlank d := by
      intro d member
      exact blank d (by simp [member])
    rw [List.dropWhile_append_of_pos later, List.dropWhile_cons_of_neg filled]
  · right
    cases w with
    | nil =>
      obtain ⟨rfl, _⟩ := List.cons.inj same
      exact absurd rfl filled
    | cons d w => exact ⟨w, (List.cons.inj same).2⟩

theorem Written.idle_back (w : Written) {rest : List Char} (single : '\n' ∉ rest) :
    Idle (w.back ++ rest) := by
  intro u v split
  rw [back] at split
  simp only [List.append_assoc, List.cons_append, List.nil_append] at split
  rcases dropWhile_after_break w.beforeLastComma.2 (by decide) split with first | ⟨u', split⟩
  · exact ⟨_, _, first, by decide⟩
  · rcases dropWhile_after_break w.afterLastComma.2 (by decide) split with first | ⟨u'', split⟩
    · exact ⟨_, _, first, by decide⟩
    · have member : '\n' ∈ '\x7b' :: (w.guid ++ '\x7d' :: '"' :: rest) := by
        rw [split]
        simp
      simp [w.guidFree, single] at member

end Opening

/-- A line with an entry, or one that does not open an entry. -/
inductive Line where
  | entry (w : Written)
  | other (text : List Char) (single : '\n' ∉ text) (plain : ¬ Opens text)

namespace Line

def text : Line → List Char
  | .entry w => w.text
  | .other text _ _ => text

def written? : Line → Option Written
  | .entry w => some w
  | .other _ _ _ => none

def content (line : Line) (returned : Bool) : List Char :=
  line.text ++ if returned then ['\r'] else []

theorem entries_content (line : Line) (returned : Bool) (next : Option (List Char)) :
    entries (ended (line.content returned) next) =
      (line.written?.map Written.entry).toList ++ resume next := by
  have single : '\n' ∉ (if returned then ['\r'] else []) := by cases returned <;> decide
  cases line with
  | entry w =>
    have whole : ended (content (.entry w) returned) next =
        w.front ++ ended (w.back ++ if returned then ['\r'] else []) next := by
      simp [ended, content, text, Written.text]
    rw [whole, entries_eq, w.entryAt?_front]
    dsimp only
    rw [resume_idle (w.idle_back single)]
    rfl
  | other text free plain =>
    apply entries_other
    · simp [content, Line.text, free, single]
    · cases returned with
      | false => simpa [content, Line.text] using plain
      | true =>
        intro opened
        exact plain (opens_of_concat rfl opened)

end Line

/-- A file of lines, each with or without a carriage return at its end. -/
def fileText (lines : List (Line × Bool)) : List Char :=
  ['\n'].intercalate (lines.map fun (line, returned) => line.content returned)

theorem entries_fileText (lines : List (Line × Bool)) :
    entries (fileText lines) = (lines.filterMap fun line => line.1.written?).map Written.entry := by
  induction lines with
  | nil => exact entries_eq_nil List.not_mem_nil rfl
  | cons first others ih =>
    obtain ⟨line, returned⟩ := first
    have cut : ∃ next, fileText ((line, returned) :: others) = ended (line.content returned) next ∧
        resume next = entries (fileText others) := by
      cases others with
      | nil =>
        refine ⟨none, ?_, (entries_eq_nil List.not_mem_nil rfl).symm⟩
        rw [fileText, List.map_singleton, List.intercalate_singleton, ended]
        simp
      | cons second more =>
        refine ⟨some (fileText (second :: more)), ?_, rfl⟩
        rw [fileText, List.map_cons, List.map_cons, List.intercalate_cons_cons, List.append_assoc]
        rfl
    obtain ⟨next, whole, rest⟩ := cut
    rw [whole, line.entries_content, rest, ih, List.filterMap_cons]
    cases line.written? <;> rfl

example :
    let gap : Blanks := ⟨[' '], List.forall_mem_singleton.2 rfl⟩
    let entry : Line := .entry ⟨"T".toList, "A".toList, "a.csproj".toList, "G".toList,
      gap, gap, gap, gap, gap, gap, gap,
      by decide, by decide, by decide, by decide, by decide, by decide⟩
    fileText [(entry, true), (.other "Global".toList (by decide) (by decide), false)] =
      " Project(\"\x7bT\x7d\") = \"A\" , \"a.csproj\" , \"\x7bG\x7d\"\r\nGlobal".toList := rfl

/-- A written solution lists the projects among its entries, in the order in which they stand
there. -/
theorem written_entries_listed (lines : List (Line × Bool)) (directory : Path) :
    (projects (fileText lines) directory).value =
      ((lines.filterMap fun line => line.1.written?).filter fun w =>
          ".csproj".toList <:+ w.path.map Char.toLower).map
        fun w => ⟨String.ofList w.name, directory.resolve w.path⟩ := by
  rw [projects_value, entries_fileText, chosen, List.filter_map, List.map_map]
  have same : ((fun e : Entry => isProject e.path) ∘ Written.entry) =
      fun w => decide (".csproj".toList <:+ w.path.map Char.toLower) := by
    funext w
    rw [Bool.eq_iff_iff, decide_eq_true_iff]
    exact isProject_iff
  rw [same]
  rfl

end Solution
end CodeAtlas
