import CodeAtlas.FileSystem
import CodeAtlas.Path.Uri

/-!
What is reported while documents are found, read and outlined. An event says what happened; its
level and its message follow from it.
-/
namespace CodeAtlas

inductive Level where
  | trace | debug | info | warn
  deriving DecidableEq, Repr

inductive ProjectError where
  | io (error : IoError)
  | markup
  deriving DecidableEq, Repr

def ProjectError.message : ProjectError → String
  | .io e => "IO error: " ++ e.message
  | .markup => "XML error"

inductive Event where
  | parsing (document : Path)
  | syntaxErrors
  | unboundDeclaration
  | outlined (top total : Nat)
  | vertexAdded (id : Nat) (uri : Uri)
  | graphWritten (size : Nat)
  | sourcesFound (count : Nat) (root : Path)
  | entryUnreadable (entry : Path) (error : IoError)
  | entrySkipped (name path : List Char)
  | patternSkipped (pattern : List Char)
  | projectFailed (project : Path) (error : ProjectError)
  | projectLoaded (name : String) (documents : Nat)
  | workspaceLoaded (projects : Nat) (description : Path)
  | documentUnreadable (document : Path) (error : IoError)
  | elementFound (document : Path) (depth : Nat) (label : String)
  | indexed (documents projects : Nat)
  deriving DecidableEq, Repr

namespace Event

def level : Event → Level
  | .parsing _ => .trace
  | .vertexAdded _ _ => .trace
  | .entryUnreadable _ _ => .warn
  | .projectFailed _ _ => .warn
  | .documentUnreadable _ _ => .warn
  | .workspaceLoaded _ _ => .info
  | .indexed _ _ => .info
  | _ => .debug

def isWarning (e : Event) : Bool := e.level == .warn

def indent (depth : Nat) : String := String.ofList (List.replicate (2 * depth) ' ')

def message : Event → String
  | .parsing document => "Parsing " ++ document.display
  | .syntaxErrors => "Source parsed with syntax errors"
  | .unboundDeclaration => "Skipping declaration without a bound symbol"
  | .outlined top total =>
    "Extracted " ++ toString top ++ " top-level elements (" ++ toString total ++ " total)"
  | .vertexAdded id uri => "Added document vertex " ++ toString id ++ " for " ++ uri.text
  | .graphWritten size => "Serialized " ++ toString size ++ " graph elements"
  | .sourcesFound count root =>
    "Found " ++ toString count ++ " source files under " ++ root.display
  | .entryUnreadable entry error =>
    "Failed to read entry: " ++ entry.display ++ ": IO error for operation on " ++
      entry.display ++ ": " ++ error.message
  | .entrySkipped name path =>
    "Skipping solution entry " ++ String.ofList name ++ " (" ++ String.ofList path ++ ")"
  | .patternSkipped pattern => "Skipping compile item pattern " ++ String.ofList pattern
  | .projectFailed project error =>
    "Failed to load project " ++ project.display ++ ": " ++ error.message
  | .projectLoaded name documents =>
    "Project " ++ name ++ " has " ++ toString documents ++ " documents"
  | .workspaceLoaded projects description =>
    "Loaded " ++ toString projects ++ " projects from " ++ description.display
  | .documentUnreadable document error =>
    "Failed to read " ++ document.display ++ ": IO error: " ++ error.message
  | .elementFound document depth label => document.display ++ ": " ++ indent depth ++ label
  | .indexed documents projects =>
    "Added " ++ toString documents ++ " documents from " ++ toString projects ++ " projects"

end Event

structure Logged (α : Type) where
  value : α
  events : List Event

end CodeAtlas
