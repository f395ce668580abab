import CodeAtlas.Declaration.Basic
import CodeAtlas.Element.Basic
import CodeAtlas.Position.SourceText

/-!
The outline of a document. Declarations are first resolved: each that binds to a symbol is kept
together with what its members resolve to, and one that does not is left out with all its members
and counted. Naming and text only come in when a resolved declaration is turned into an element.
-/
namespace CodeAtlas

inductive Form where
  | container (form : ContainerForm)
  | single (form : SingleForm)
  | declarator
  deriving DecidableEq, Repr

namespace Form

def isTypeLike : Form → Bool
  | .container _ => true
  | .single .delegate => true
  | _ => false

def isNamespace : Form → Bool
  | .container .namespace => true
  | _ => false

end Form

/-- A declaration with its symbol and its resolved members. -/
inductive Resolved (N : Type) where
  | mk (form : Form) (head : Head N) (symbol : BoundSymbol) (members : List (Resolved N))

namespace Resolved

def form {N : Type} : Resolved N → Form
  | mk form _ _ _ => form

def head {N : Type} : Resolved N → Head N
  | mk _ head _ _ => head

def symbol {N : Type} : Resolved N → BoundSymbol
  | mk _ _ symbol _ => symbol

def members {N : Type} : Resolved N → List (Resolved N)
  | mk _ _ _ members => members

end Resolved

structure Resolution (N : Type) where
  found : List (Resolved N)
  unbound : Nat

namespace Resolution

def empty {N : Type} : Resolution N := ⟨[], 0⟩

def missing {N : Type} : Resolution N := ⟨[], 1⟩

def append {N : Type} (a b : Resolution N) : Resolution N :=
  ⟨a.found ++ b.found, a.unbound + b.unbound⟩

def concat {N : Type} : List (Resolution N) → Resolution N
  | [] => empty
  | r :: rest => r.append (concat rest)

end Resolution

namespace SyntaxTree

def resolveHead {N : Type} (model : Model N) (form : Form) (head : Head N) : Resolution N :=
  match model head.node with
  | none => .missing
  | some symbol => ⟨[.mk form head symbol []], 0⟩

def resolve {N : Type} (tree : SyntaxTree N) (model : Model N) (n : N) : Resolution N :=
  match _h : tree.classify n with
  | .container form head members =>
    match model head.node with
    | none => .missing
    | some symbol =>
      let inner := Resolution.concat (members.attach.map fun ⟨m, _⟩ => tree.resolve model m)
      ⟨[.mk (.container form) head symbol inner.found], inner.unbound⟩
  | .single form head => resolveHead model (.single form) head
  | .fields statement =>
    Resolution.concat (statement.declarators.map fun v =>
      resolveHead model .declarator (statement.head v))
  | .other => .empty
termination_by tree.rank n
decreasing_by
  apply tree.rank_lt n m
  simp_all [Declaration.members]

def resolution {N : Type} (tree : SyntaxTree N) (model : Model N) : Resolution N :=
  Resolution.concat (tree.roots.map (tree.resolve model))

end SyntaxTree

def SourceText.shown? (text : SourceText) (span : Option Span) : Option Range :=
  (span.filter fun s => !s.isEmpty).map text.rangeOf

/-- The ranges that an element shows; a namespace shows no attributes. -/
def Extent.ranges (extent : Extent) (text : SourceText) (form : Form) : Ranges :=
  { attributes := if form.isNamespace then none else text.shown? extent.attributes
    full := text.shown? (some extent.full)
    name := text.shown? extent.name }

/-- What an element shows of its symbol; a namespace shows nothing. -/
def BoundSymbol.properties? (symbol : BoundSymbol) (form : Form) : Option Properties :=
  if form.isNamespace then none
  else some
    { accessibility := symbol.accessibility.tag?.map .text
      isStatic := some (.flag symbol.isStatic) }

namespace Resolved

mutual

def element {N : Type} (naming : Naming) (text : SourceText) : Resolved N → Element
  | mk form head symbol members =>
    let short := if form.isTypeLike then naming.shortType else naming.shortMember
    let full := if form.isTypeLike then naming.fullType else naming.fullMember
    let children := elements naming text members
    let ranges := head.extent.ranges text form
    { kind := symbol.category.elementKind
      name := symbol.display short
      displayName := symbol.display full
      children := if children.isEmpty then none else some children
      ranges := if ranges.isEmpty then none else some ranges
      properties := symbol.properties? form }

def elements {N : Type} (naming : Naming) (text : SourceText) : List (Resolved N) → List Element
  | [] => []
  | r :: rest => element naming text r :: elements naming text rest

end

end Resolved

/-- The elements of a document and the number of declarations left out. -/
structure Outline where
  elements : List Element
  unbound : Nat

def SyntaxTree.outline {N : Type} (tree : SyntaxTree N) (model : Model N) (naming : Naming)
    (text : SourceText) : Outline :=
  let resolution := tree.resolution model
  ⟨Resolved.elements naming text resolution.found, resolution.unbound⟩

end CodeAtlas
