import CodeAtlas.Document
import CodeAtlas.Graph
import CodeAtlas.Workspace

/-!
Indexing a workspace: every document of every project becomes a vertex of the graph, whether it
can be read or not. The outlines of the documents that can be read are reported and do not
influence the graph. The parser that makes a syntax tree of a text is given from outside.
-/
namespace CodeAtlas

abbrev Parser := Path → SourceText → Syntax.Node

inductive IndexError where
  | load (description : Path) (error : WorkspaceError)
  | document (error : InvalidPath)
  deriving DecidableEq, Repr

namespace IndexError

def message : IndexError → String
  | .load description _ => "Failed to load " ++ description.display
  | .document error => "Invalid document path " ++ error.path.display

def causes : IndexError → List String
  | .load _ error => error.causes
  | .document error => [error.message]

end IndexError

def Outline.events (o : Outline) : List Event :=
  List.replicate o.unbound .unboundDeclaration ++
    [.outlined o.elements.length (Element.totals o.elements)]

def Element.events (document : Path) (elements : List Element) : List Event :=
  (Element.listings 0 elements).map fun (depth, e) => .elementFound document depth e.label

namespace Index

def parseEvents (d : Document) : List Event := if d.hasErrors then [.syntaxErrors] else []

def structureEvents (fs : FileSystem) (parse : Parser) (naming : Naming) (path : Path) :
    List Event :=
  match fs.readText path with
  | .error e => [.documentUnreadable path e]
  | .ok text =>
    let document : Document := ⟨⟨text⟩, parse path ⟨text⟩⟩
    let outline := document.outline naming
    .parsing path :: parseEvents document ++ outline.events ++
      Element.events path outline.elements

structure State where
  graph : Graph := {}
  events : List Event := []

def addDocument (fs : FileSystem) (parse : Parser) (naming : Naming) (s : State) (path : Path) :
    Except InvalidPath State :=
  (Uri.ofPath path).map fun uri =>
    { graph := s.graph.addDocument uri
      events := s.events ++ [.vertexAdded (s.graph.next uri).id uri] ++
        structureEvents fs parse naming path }

def addDocuments (fs : FileSystem) (parse : Parser) (naming : Naming) (s : State) :
    List Path → Except InvalidPath State
  | [] => .ok s
  | path :: rest =>
    (addDocument fs parse naming s path).bind fun s => addDocuments fs parse naming s rest

def progress (projects : List Project) : String :=
  String.join (projects.map fun p => p.path.display ++ "\n")

structure Built where
  graph : Graph
  progress : String

/-- The graph of all documents that a build description leads to. -/
def build (fs : FileSystem) (parse : Parser) (naming : Naming) (description : Path) :
    Logged (Except IndexError Built) :=
  let loaded := Workspace.load fs description
  match loaded.value with
  | .error e => ⟨.error (.load description e), loaded.events⟩
  | .ok workspace =>
    match addDocuments fs parse naming {} workspace.documents with
    | .error e => ⟨.error (.document e), loaded.events⟩
    | .ok s =>
      ⟨.ok ⟨s.graph, progress workspace.projects⟩,
        loaded.events ++ s.events ++ [.indexed s.graph.size workspace.projects.length]⟩

end Index
end CodeAtlas
