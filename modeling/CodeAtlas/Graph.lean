import CodeAtlas.Json.Writer
import CodeAtlas.Path.Uri

/-!
The graph of documents. Every vertex stands for one document and is numbered, from one, in the
order in which it was added.
-/
namespace CodeAtlas
open Json (Value)

structure Vertex where
  id : Nat
  uri : Uri
  deriving DecidableEq, Repr

structure Graph where
  vertices : List Vertex := []
  deriving DecidableEq, Repr, Inhabited

def Vertex.toJson (v : Vertex) : Value :=
  .record [("id", .nat v.id), ("type", .text "vertex"), ("label", .text "project"),
    ("uri", .text v.uri.text), ("languageId", .text "csharp")]

namespace Graph

def size (g : Graph) : Nat := g.vertices.length

def isEmpty (g : Graph) : Bool := g.vertices.isEmpty

def next (g : Graph) (uri : Uri) : Vertex := ⟨g.size + 1, uri⟩

def addDocument (g : Graph) (uri : Uri) : Graph := ⟨g.vertices ++ [g.next uri]⟩

def toJson (g : Graph) : Value := .arr (g.vertices.map Vertex.toJson)

def serialize (g : Graph) : String := g.toJson.toText

end Graph
end CodeAtlas
