import CodeAtlas.Element.Kind
import CodeAtlas.Naming.Format
import CodeAtlas.Position.Span

/-!
Declarations as the outline sees them. A syntax tree sorts each of its nodes into one of four
forms of declaration: containers, which have members; single declarations; field statements, which
declare several variables at once; and all else. A model binds nodes to symbols.
-/
namespace CodeAtlas

inductive ContainerForm where
  | type | enum | «namespace»
  deriving DecidableEq, Repr

inductive MethodForm where
  | method | constructor | destructor | operator | conversion
  deriving DecidableEq, Repr

inductive PropertyForm where
  | property | event | indexer
  deriving DecidableEq, Repr

inductive SingleForm where
  | delegate
  | enumMember
  | method (form : MethodForm)
  | property (form : PropertyForm)
  deriving DecidableEq, Repr

/-- Where a declaration stands in the text: its attributes, all of it, and the token that names
it. -/
structure Extent where
  attributes : Option Span
  full : Span
  name : Option Span
  deriving DecidableEq, Repr

structure Head (N : Type) where
  node : N
  extent : Extent
  deriving DecidableEq, Repr

structure Declarator (N : Type) where
  node : N
  full : Span
  name : Option Span
  deriving DecidableEq, Repr

structure FieldStatement (N : Type) where
  attributes : Option Span
  full : Span
  declarators : List (Declarator N)
  deriving DecidableEq, Repr

def FieldStatement.head {N : Type} (f : FieldStatement N) (v : Declarator N) : Head N :=
  ⟨v.node, ⟨f.attributes, f.full, v.name⟩⟩

inductive Declaration (N : Type) where
  | container (form : ContainerForm) (head : Head N) (members : List N)
  | single (form : SingleForm) (head : Head N)
  | fields (statement : FieldStatement N)
  | other
  deriving DecidableEq, Repr

def Declaration.members {N : Type} : Declaration N → List N
  | .container _ _ members => members
  | _ => []

/-- A tree of declarations in which members always rank below their container, so that going from
containers to members comes to an end. -/
structure SyntaxTree (N : Type) where
  roots : List N
  classify : N → Declaration N
  rank : N → Nat
  rank_lt : ∀ n, ∀ m ∈ (classify n).members, rank m < rank n

structure BoundSymbol where
  category : Category
  accessibility : Accessibility
  isStatic : Bool
  display : DisplayFormat → String

abbrev Model (N : Type) := N → Option BoundSymbol

end CodeAtlas
