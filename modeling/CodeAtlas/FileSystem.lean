import CodeAtlas.Path.Basic

/-!
File systems as values: a tree of directories and files without links, and a working directory. A
path is followed piece by piece from the root, or from the working directory if it is relative;
every piece but the last has to be a directory. Names and paths have a greatest length, and no path
holds a zero byte.
-/
namespace CodeAtlas
open Text

inductive Entry where
  | file (content : Bytes)
  | directory (entries : List (Bytes × Entry))
  deriving Inhabited

inductive IoError where
  | notFound | isDirectory | notDirectory | nameTooLong | zeroByte | invalidText
  deriving DecidableEq, Repr

def IoError.message : IoError → String
  | .notFound => "No such file or directory (os error 2)"
  | .isDirectory => "Is a directory (os error 21)"
  | .notDirectory => "Not a directory (os error 20)"
  | .nameTooLong => "File name too long (os error 36)"
  | .zeroByte => "file name contained an unexpected NUL byte"
  | .invalidText => "stream did not contain valid UTF-8"

namespace Entry

def emptyDirectory : Entry := .directory []

def update (name : Bytes) (change : Option Entry → Entry) :
    List (Bytes × Entry) → List (Bytes × Entry)
  | [] => [(name, change none)]
  | (n, e) :: rest =>
    if n = name then (n, change (some e)) :: rest else (n, e) :: update name change rest

/-- Puts an entry at the end of a path of names, with the directories that lead there. A
directory does not replace one that is there, and a file on the way is in the way. -/
def place (new : Entry) : List Bytes → Entry → Entry
  | [], old =>
    match old, new with
    | .directory _, .directory [] => old
    | _, _ => new
  | name :: rest, old =>
    match old with
    | .file _ => old
    | .directory entries =>
      .directory (update name (fun e => place new rest (e.getD emptyDirectory)) entries)

end Entry

structure FileSystem where
  root : Entry
  workingDirectory : List Bytes := []

/-- An entry with the names that lead to it, the innermost first. -/
structure Located where
  trail : List (Bytes × Entry)
  entry : Entry

namespace FileSystem

def nameLimit : Nat := 255

def pathLimit : Nat := 4095

def entryAt (root : Entry) : List (Bytes × Entry) → Entry
  | [] => root
  | (_, e) :: _ => e

/-- Follows the pieces of a path; `..` at the root stays there. -/
def follow (root : Entry) (trail : List (Bytes × Entry)) : List Bytes → Except IoError Located
  | [] => .ok ⟨trail, entryAt root trail⟩
  | segment :: rest =>
    match entryAt root trail with
    | .file _ => .error .notDirectory
    | .directory entries =>
      if Path.isFiller segment then follow root trail rest
      else if segment = [Path.dot, Path.dot] then follow root (trail.drop 1) rest
      else if nameLimit < segment.length then .error .nameTooLong
      else match entries.lookup segment with
        | none => .error .notFound
        | some e => follow root ((segment, e) :: trail) rest

/-- What a path names. A path that cannot be one is refused before it is followed. -/
def locate (fs : FileSystem) (p : Path) : Except IoError Located :=
  if p.bytes.contains 0 then .error .zeroByte
  else if p.bytes.isEmpty then .error .notFound
  else if pathLimit < p.bytes.length then .error .nameTooLong
  else if p.isAbsolute then follow fs.root [] p.segments
  else follow fs.root [] (fs.workingDirectory ++ p.segments)

def isFile (fs : FileSystem) (p : Path) : Bool :=
  match fs.locate p with
  | .ok ⟨_, .file _⟩ => true
  | _ => false

def canonical (fs : FileSystem) (p : Path) : Except IoError Path :=
  (fs.locate p).map fun l => Path.ofNames true (l.trail.map (·.1)).reverse

def readText (fs : FileSystem) (p : Path) : Except IoError (List Char) :=
  match fs.locate p with
  | .error e => .error e
  | .ok ⟨_, .directory _⟩ => .error .isDirectory
  | .ok ⟨_, .file content⟩ =>
    match Utf8.decode? content with
    | some text => .ok text
    | none => .error .invalidText

end FileSystem
end CodeAtlas
