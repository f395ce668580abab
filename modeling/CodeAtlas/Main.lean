import CodeAtlas.Command

/-!
The program. The files that a build description leads to are copied into a file system value, on
which the command runs.
-/
namespace CodeAtlas.Main
open Text

def emptyFileSystem (workingDirectory : Path) : FileSystem :=
  let names := workingDirectory.segments.filter fun s => !Path.isFiller s
  { root := Entry.place .emptyDirectory names .emptyDirectory, workingDirectory := names }

def put (fs : FileSystem) (path : Path) (entry : Entry) : FileSystem :=
  { fs with root := Entry.place entry (path.segments.filter fun s => !Path.isFiller s) fs.root }

/-- The names below a directory; the contents of files are not read. -/
partial def readNames (path : String) : IO Entry := do
  let real ← IO.FS.realPath path
  if ← real.isDir then
    let entries ← real.readDir
    let below ← entries.toList.mapM fun e => do
      pure (Utf8.ofString e.fileName, ← readNames (path ++ "/" ++ e.fileName))
    pure (.directory below)
  else pure (.file [])

def copyFile (fs : FileSystem) (path : Path) : IO FileSystem := do
  try
    let content ← IO.FS.readBinFile path.display
    pure (put fs path (.file content.toList))
  catch _ => pure fs

def copyDirectory (fs : FileSystem) (path : Path) : IO FileSystem := do
  try
    let entry ← readNames path.display
    pure (put fs path entry)
  catch _ => pure fs

def ways (path : Path) : List Path :=
  let segments := path.segments
  (List.range segments.length).map fun n => ⟨[Path.slash].intercalate (segments.take n)⟩

def copyWay (fs : FileSystem) (path : Path) : IO FileSystem := do
  try
    let real ← IO.FS.realPath path.display
    if ← real.isDir then pure (put fs path.normalize .emptyDirectory) else pure fs
  catch _ => pure fs

/-- Copies what a description leads to: itself, each project with its directory, and the
documents. -/
def copyWorkspace (fs : FileSystem) (workingDirectory description : Path) : IO FileSystem := do
  let written := workingDirectory.join description
  let description := written.normalize
  let fs ← (ways written).foldlM copyWay fs
  let fs ← copyFile fs description
  match (Workspace.load fs description).value with
  | .error _ => pure fs
  | .ok workspace =>
    let directories := workspace.projects.filterMap fun p => p.path.parent?
    let fs ← directories.foldlM copyDirectory fs
    let fs ← (workspace.projects.map (·.path)).foldlM copyFile fs
    let fs ← copyFile fs description
    match (Workspace.load fs description).value with
    | .error _ => pure fs
    | .ok workspace => workspace.documents.foldlM copyFile fs

end CodeAtlas.Main

open CodeAtlas in
def main (args : List String) : IO UInt32 := do
  let workingDirectory := Path.ofString (← IO.currentDir).toString
  let fs := Main.emptyFileSystem workingDirectory
  let fs ← match Request.ofArgs none false args with
    | .index description => Main.copyWorkspace fs workingDirectory (Path.ofString description)
    | _ => pure fs
  let outcome := Command.run fs args
  IO.print outcome.stdout
  IO.eprint outcome.stderr
  for warning in outcome.warnings do
    IO.eprintln ("WARN " ++ warning.message)
  pure outcome.code.toUInt32
