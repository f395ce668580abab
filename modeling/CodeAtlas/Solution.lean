import CodeAtlas.Log
import CodeAtlas.Text.Blank

/-!
Solution files. An entry starts at the start of a line, after blanks, with `Project("{`, and gives
a name and a path between quotes. Blanks and quoted texts may run over several lines; the search
for the next entry goes on in the line in which an entry ends.
-/
namespace CodeAtlas
open Text

namespace Solution

structure Entry where
  name : List Char
  path : List Char
  deriving DecidableEq, Repr

def afterBlanks? (lead s : List Char) : Option (List Char) := after? lead (s.dropWhile isBlank)

def opening : List Char := "Project(\"\x7b".toList

def closing : List Char := "\x7d\")".toList

def entryAt? (s : List Char) : Option (Entry × List Char) := do
  let s ← afterBlanks? opening s
  let s ← after? closing (s.dropWhile (· != '\x7d'))
  let s ← afterBlanks? ['='] s
  let s ← afterBlanks? ['"'] s
  let (name, s) ← cutFirst? '"' s
  let s ← afterBlanks? [','] s
  let s ← afterBlanks? ['"'] s
  let (path, s) ← cutFirst? '"' s
  pure (⟨trim name, trim path⟩, s)

def nextLine? (s : List Char) : Option (List Char) := (cutFirst? '\n' s).map (·.2)

theorem length_nextLine? {s t : List Char} (h : nextLine? s = some t) : t.length < s.length := by
  obtain ⟨⟨a, b⟩, hc, rfl⟩ := Option.map_eq_some_iff.1 h
  exact length_cutFirst? hc

theorem length_afterBlanks? {lead s t : List Char} (h : afterBlanks? lead s = some t) :
    t.length ≤ s.length :=
  Nat.le_trans (length_after? h) (length_dropWhile_le _ _)

theorem length_entryAt? {s t : List Char} {e : Entry} (h : entryAt? s = some (e, t)) :
    t.length ≤ s.length := by
  simp only [entryAt?, Option.bind_eq_bind, Option.bind_eq_some_iff, Prod.exists,
    Option.pure_def, Option.some.injEq, Prod.mk.injEq] at h
  obtain ⟨s1, h1, s2, h2, s3, h3, s4, h4, name, s5, h5, s6, h6, s7, h7, path, s8, h8, _, rfl⟩ := h
  have h1 := length_afterBlanks? h1
  have h2 := Nat.le_trans (length_after? h2) (length_dropWhile_le _ _)
  have h3 := length_afterBlanks? h3
  have h4 := length_afterBlanks? h4
  have h5 := length_cutFirst? h5
  have h6 := length_afterBlanks? h6
  have h7 := length_afterBlanks? h7
  have h8 := length_cutFirst? h8
  omega

/-- The entries of a text that starts at the start of a line. -/
def entries (s : List Char) : List Entry :=
  match _h : entryAt? s with
  | some (e, rest) =>
    match _hn : nextLine? rest with
    | some next => e :: entries next
    | none => [e]
  | none =>
    match _hn : nextLine? s with
    | some next => entries next
    | none => []
termination_by s.length
decreasing_by
  · have := length_entryAt? _h
    have := length_nextLine? _hn
    omega
  · exact length_nextLine? _hn

structure Listed where
  name : String
  path : Path
  deriving DecidableEq, Repr

def isProject (path : List Char) : Bool :=
  match cutLast? '.' path with
  | some (_, extension) => sameName extension "csproj".toList
  | none => false

def projects (text : List Char) (directory : Path) : Logged (List Listed) :=
  let found := entries text
  { value := (found.filter fun e => isProject e.path).map fun e =>
      ⟨String.ofList e.name, directory.resolve e.path⟩
    events := (found.filter fun e => !isProject e.path).map fun e =>
      .entrySkipped e.name e.path }

end Solution
end CodeAtlas
