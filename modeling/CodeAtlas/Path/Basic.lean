import CodeAtlas.Text.Ascii
import CodeAtlas.Text.Split
import CodeAtlas.Text.Utf8

/-!
File paths as byte sequences. A path has a written form, which is what is shown, and components,
by which paths are ordered and resolved. Normalising a path drops `.` and lets `..` take away the
name before it, without a look at any file system.
-/
namespace CodeAtlas
open Text

structure Path where
  bytes : Bytes
  deriving DecidableEq, Repr, Inhabited

/-- A part of a path. A `.` counts only at the start of a relative path. -/
inductive Component where
  | root
  | current
  | parent
  | name (bytes : Bytes)
  deriving DecidableEq, Repr

namespace Path

def slash : UInt8 := 0x2F
def dot : UInt8 := 0x2E
def backslash : UInt8 := 0x5C

def ofString (s : String) : Path := ⟨Utf8.ofString s⟩

/-- The path as shown; bytes that are no text are shown as U+FFFD. -/
def display (p : Path) : String := String.ofList (Utf8.lossy p.bytes)

def isAbsolute (p : Path) : Bool := p.bytes.head? == some slash

def segments (p : Path) : List Bytes := pieces slash p.bytes

/-- Whether a piece between slashes leads nowhere. -/
def isFiller (segment : Bytes) : Bool := segment.isEmpty || segment == [dot]

def component (segment : Bytes) : Component :=
  if segment == [dot, dot] then .parent else .name segment

def start (p : Path) : List Component :=
  if p.isAbsolute then [.root]
  else if p.segments.head? == some [dot] then [.current]
  else []

def components (p : Path) : List Component :=
  p.start ++ (p.segments.filter fun s => !isFiller s).map component

def ofNames (absolute : Bool) (names : List Bytes) : Path :=
  ⟨(if absolute then [slash] else []) ++ [slash].intercalate names⟩

def step (names : List Bytes) : Component → List Bytes
  | .root => []
  | .current => names
  | .parent => names.drop 1
  | .name n => n :: names

def normalize (p : Path) : Path := ofNames p.isAbsolute ((p.components.foldl step []).reverse)

/-- An absolute path takes the place of the one before it. -/
def join (p q : Path) : Path :=
  if q.isAbsolute then q
  else if p.bytes.isEmpty || p.bytes.getLast? == some slash then ⟨p.bytes ++ q.bytes⟩
  else ⟨p.bytes ++ slash :: q.bytes⟩

/-- The path that a text names when it is read in a directory; backslashes separate too. -/
def resolve (directory : Path) (text : List Char) : Path :=
  let bytes := (Utf8.encode text).map fun b => if b == backslash then slash else b
  (directory.join ⟨bytes⟩).normalize

def fileName? (p : Path) : Option Bytes :=
  match p.components.getLast? with
  | some (.name n) => some n
  | _ => none

def parent? (p : Path) : Option Path :=
  match p.components.reverse with
  | [] | .root :: _ => none
  | [.current] => some ⟨[]⟩
  | _ =>
    let kept := ((p.segments.reverse.dropWhile isFiller).drop 1).dropWhile isFiller
    if kept.isEmpty then
      some ⟨if p.isAbsolute then [slash] else if p.start.isEmpty then [] else [dot]⟩
    else some ⟨[slash].intercalate kept.reverse⟩

/-- A file name's part before its last dot and the part after it. A dot at the start of a name
does not divide it. -/
def splitName (name : Bytes) : Bytes × Option Bytes :=
  match cutLast? dot name with
  | some (stem, extension) => if stem.isEmpty then (name, none) else (stem, some extension)
  | none => (name, none)

def extension? (p : Path) : Option Bytes := p.fileName?.bind fun n => (splitName n).2

def hasExtension (p : Path) (word : String) : Bool :=
  match p.extension? with
  | some e => sameBytes e (Utf8.ofString word)
  | none => false

def stem? (p : Path) : Option Bytes := p.fileName?.map fun n => (splitName n).1

end Path

/-- Components are ordered by what they are, names among themselves by their bytes. -/
def Component.key : Component → List Nat
  | .root => [0]
  | .current => [1]
  | .parent => [2]
  | .name n => 3 :: n.map UInt8.toNat

namespace Path

def key (p : Path) : List (List Nat) := p.components.map Component.key

def insert (p : Path) : List Path → List Path
  | [] => [p]
  | q :: rest =>
    if p.key < q.key then p :: q :: rest
    else if p.key = q.key then q :: rest
    else q :: insert p rest

def sorted (paths : List Path) : List Path := paths.foldl (fun acc p => p.insert acc) []

end Path
end CodeAtlas
