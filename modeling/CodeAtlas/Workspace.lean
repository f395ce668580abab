import CodeAtlas.Project.Basic
import CodeAtlas.Solution

/-!
Workspaces: the projects of a build description, which is a solution or a single project file.
-/
namespace CodeAtlas

structure Workspace where
  description : Path
  projects : List Project
  deriving DecidableEq, Repr

inductive WorkspaceError where
  | notFound (path : Path)
  | unsupported (path : Path)
  | io (error : IoError)
  deriving DecidableEq, Repr

namespace WorkspaceError

def message : WorkspaceError → String
  | .notFound path => "Build description not found: " ++ path.display
  | .unsupported path => "Unsupported build description: " ++ path.display
  | .io error => "IO error: " ++ error.message

def causes (e : WorkspaceError) : List String :=
  e.message :: match e with
    | .io error => [error.message]
    | _ => []

end WorkspaceError

namespace Workspace

def documents (w : Workspace) : List Path := w.projects.flatMap (·.documents)

def documentCount (w : Workspace) : Nat := w.documents.length

def loadAll (fs : FileSystem) : List Solution.Listed → Logged (List Project)
  | [] => ⟨[], []⟩
  | l :: rest =>
    let first := Project.load fs l.name l.path
    let others := loadAll fs rest
    ⟨first.value :: others.value, first.events ++ others.events⟩

def ofListed (fs : FileSystem) (description : Path) (listed : List Solution.Listed) :
    Logged Workspace :=
  let projects := loadAll fs listed
  ⟨⟨description, projects.value⟩,
    projects.events ++ [.workspaceLoaded projects.value.length description]⟩

def loadCanonical (fs : FileSystem) (path : Path) : Logged (Except WorkspaceError Workspace) :=
  if path.hasExtension "sln" then
    match fs.readText path with
    | .error e => ⟨.error (.io e), []⟩
    | .ok text =>
      let listed := Solution.projects text (path.parent?.getD ⟨[]⟩)
      let workspace := ofListed fs path listed.value
      ⟨.ok workspace.value, listed.events ++ workspace.events⟩
  else if path.hasExtension "csproj" then
    let name := String.ofList (Text.Utf8.lossy (path.stem?.getD []))
    let workspace := ofListed fs path [⟨name, path⟩]
    ⟨.ok workspace.value, workspace.events⟩
  else ⟨.error (.unsupported path), []⟩

def load (fs : FileSystem) (path : Path) : Logged (Except WorkspaceError Workspace) :=
  if fs.isFile path then
    match fs.canonical path with
    | .error e => ⟨.error (.io e), []⟩
    | .ok path => loadCanonical fs path
  else ⟨.error (.notFound path), []⟩

end Workspace
end CodeAtlas
