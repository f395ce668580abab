import CodeAtlas.Outline
import CodeAtlas.Symbol.Binding
import CodeAtlas.Syntax.Classify

/-!
A document: a text with the syntax tree that a parser made of it. Its declarations and symbols
give its outline.
-/
namespace CodeAtlas
open Syntax

structure Document where
  source : SourceText
  root : Node

def Symbol.toBound (s : Symbol) : BoundSymbol :=
  { category := s.category
    accessibility := s.accessibility
    isStatic := s.isStatic
    display := fun format => String.ofList (s.render format) }

namespace Document

def hasErrors (d : Document) : Bool := d.root.label.hasError

def rootMembers (d : Document) : List Cursor := (Cursor.root d.root).rootMembers

/-- The declarations of a document, ranked by how much of the tree they reach. -/
def tree (d : Document) : SyntaxTree Cursor :=
  { roots := d.rootMembers
    classify := Cursor.classify
    rank := fun c => c.reach
    rank_lt := fun _ _ h => (Cursor.reach_members h).1 }

def model (d : Document) : Model Cursor := fun c => (c.bind? d.source).map Symbol.toBound

def outline (d : Document) (naming : Naming) : Outline := d.tree.outline d.model naming d.source

end Document
end CodeAtlas
