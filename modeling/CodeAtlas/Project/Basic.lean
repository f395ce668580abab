import CodeAtlas.Project.File
import CodeAtlas.Project.Sources

/-!
Projects: a name, the path of the project file, and the documents, in order. A project whose file
cannot be read has no documents, and that is reported.
-/
namespace CodeAtlas
open Text

structure Project where
  name : String
  path : Path
  documents : List Path
  deriving DecidableEq, Repr

namespace Project

def items (value : List Char) : List (List Char) :=
  ((pieces ';' value).map trim).filter fun item => !item.isEmpty

/-- An item with a wild card or a property in it names no single file. -/
def isPattern (item : List Char) : Bool :=
  item.contains '*' || (cutAt? "$(".toList item).isSome

def documentsOf (fs : FileSystem) (directory : Path) (file : ProjectFile) : Logged (List Path) :=
  let scanned : Logged (List Path) :=
    if file.isSdk && !file.defaultsOff then Sources.find fs directory else ⟨[], []⟩
  let listed := file.includes.flatMap items
  let named := (listed.filter fun item => !isPattern item).map directory.resolve
  { value := Path.sorted (scanned.value ++ named)
    events := scanned.events ++ (listed.filter isPattern).map .patternSkipped }

def documentsAt (fs : FileSystem) (path : Path) : Logged (List Path) :=
  match fs.readText path with
  | .error e => ⟨[], [.projectFailed path (.io e)]⟩
  | .ok text =>
    match ProjectFile.parse text with
    | .error _ => ⟨[], [.projectFailed path .markup]⟩
    | .ok file => documentsOf fs (path.parent?.getD ⟨[]⟩) file

def load (fs : FileSystem) (name : String) (path : Path) : Logged Project :=
  let found := documentsAt fs path
  ⟨⟨name, path, found.value⟩, found.events ++ [.projectLoaded name found.value.length]⟩

end Project
end CodeAtlas
