import CodeAtlas.Position.Span
import CodeAtlas.Syntax.NodeKind

/-!
Concrete syntax trees. Every node has a label and children; a tree can be given by its rows, the
labels of all nodes in pre-order, each with its depth.
-/
namespace CodeAtlas.Syntax

structure Label where
  kind : NodeKind
  role : Option Role
  span : Span
  isNamed : Bool
  /-- The parser put the node in where the text has nothing. -/
  isMissing : Bool
  /-- The node stands for text that the parser could not use. -/
  isError : Bool
  hasError : Bool
  deriving DecidableEq, Repr

inductive Node where
  | mk (label : Label) (children : List Node)

namespace Node

def label : Node → Label
  | mk label _ => label

def children : Node → List Node
  | mk _ children => children

def kind (n : Node) : NodeKind := n.label.kind

def span (n : Node) : Span := n.label.span

def isNamed (n : Node) : Bool := n.label.isNamed

def isMissing (n : Node) : Bool := n.label.isMissing

mutual

def size : Node → Nat
  | mk _ children => 1 + sizes children

def sizes : List Node → Nat
  | [] => 0
  | n :: rest => size n + sizes rest

end

mutual

def rows (depth : Nat) : Node → List (Nat × Label)
  | mk label children => (depth, label) :: rowsOf (depth + 1) children

def rowsOf (depth : Nat) : List Node → List (Nat × Label)
  | [] => []
  | n :: rest => rows depth n ++ rowsOf depth rest

end

/-- Puts a row in front of a forest; the deeper trees that follow it become its children. -/
def adopt (row : Nat × Label) (forest : List (Nat × Node)) : List (Nat × Node) :=
  let deeper := fun t : Nat × Node => decide (row.1 < t.1)
  (row.1, .mk row.2 ((forest.takeWhile deeper).map (·.2))) :: forest.dropWhile deeper

def ofRows? (rows : List (Nat × Label)) : Option Node :=
  match rows.foldr adopt [] with
  | [(_, root)] => some root
  | _ => none

def blank : Node :=
  .mk
    { kind := .other "compilation_unit", role := none, span := ⟨0, 0⟩, isNamed := true
      isMissing := false, isError := false, hasError := false } []

theorem size_pos (n : Node) : 0 < n.size := by
  cases n
  rw [size]
  omega

end Node
end CodeAtlas.Syntax
