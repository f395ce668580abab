import CodeAtlas.Log

/-!
The C# sources of a directory. Hidden files and directories are left out at every depth below the
root, and build output, the directories `bin` and `obj`, right below it.
-/
namespace CodeAtlas
open Text

def isHidden (name : Bytes) : Bool := name.head? == some Path.dot

def isBuildOutput (name : Bytes) : Bool :=
  sameBytes name (Utf8.ofString "bin") || sameBytes name (Utf8.ofString "obj")

def isSource (p : Path) : Bool := p.hasExtension "cs"

namespace Entry

mutual

/-- The names that lead to the files of a directory that are not left out. `top` says that the
directory is the root of the search. -/
def visibleFiles (top : Bool) : List (Bytes × Entry) → List (List Bytes)
  | [] => []
  | (name, e) :: rest => visibleAt top name e ++ visibleFiles top rest

def visibleAt (top : Bool) (name : Bytes) : Entry → List (List Bytes)
  | .file _ => if isHidden name then [] else [[name]]
  | .directory entries =>
    if isHidden name || (top && isBuildOutput name) then []
    else (visibleFiles false entries).map (name :: ·)

end

end Entry

namespace Sources

def pathTo (root : Path) (names : List Bytes) : Path :=
  names.foldl (fun p n => p.join ⟨n⟩) root

/-- The sources at and below a path, in order. The walk below the root goes from entry to entry and,
unlike `FileSystem.locate`, knows no `pathLimit`. -/
def find (fs : FileSystem) (root : Path) : Logged (List Path) :=
  match fs.locate root with
  | .error e => ⟨[], [.entryUnreadable root e, .sourcesFound 0 root]⟩
  | .ok ⟨_, entry⟩ =>
    let files :=
      match entry with
      | .file _ => [root]
      | .directory entries => (Entry.visibleFiles true entries).map (pathTo root)
    let sources := Path.sorted (files.filter isSource)
    ⟨sources, [.sourcesFound sources.length root]⟩

end Sources
end CodeAtlas
