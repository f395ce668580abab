import CodeAtlas.Syntax.Node

/-!
Nodes in their surroundings. A place is a node among its siblings, with its number in the pre-order
of the tree; a cursor is a place with the places above it, the nearest first.
-/
namespace CodeAtlas.Syntax

structure Place where
  node : Node
  row : Nat
  /-- Siblings before the node, the nearest first. -/
  before : List Node
  after : List Node

namespace Place

def line (row : Nat) (before : List Node) : List Node → List Place
  | [] => []
  | n :: rest => ⟨n, row, before, rest⟩ :: line (row + n.size) (n :: before) rest

def children (p : Place) : List Place := line (p.row + 1) [] p.node.children

def following (p : Place) : List Place := line (p.row + p.node.size) (p.node :: p.before) p.after

/-- How many nodes there are at and below a place and its later siblings. -/
def reach (p : Place) : Nat := p.node.size + Node.sizes p.after

theorem reach_line (row : Nat) (before nodes : List Node) :
    ∀ p ∈ line row before nodes, p.reach ≤ Node.sizes nodes ∧ row ≤ p.row := by
  induction nodes generalizing row before with
  | nil => simp [line]
  | cons n rest ih =>
    intro p hp
    rw [line, List.mem_cons] at hp
    rcases hp with rfl | hp
    · simp [reach, Node.sizes]
    · have h := ih _ _ p hp
      have := n.size_pos
      simp only [Node.sizes]
      omega

theorem reach_children (p q : Place) (h : q ∈ p.children) : q.reach < p.reach := by
  have hq := (reach_line _ _ _ q h).1
  obtain ⟨⟨label, children⟩, row, before, after⟩ := p
  simp only [reach, Node.children, Node.size] at *
  omega

theorem reach_following (p q : Place) (h : q ∈ p.following) : q.reach < p.reach := by
  have hq := (reach_line _ _ _ q h).1
  have := p.node.size_pos
  simp only [reach] at *
  omega

theorem row_children (p q : Place) (h : q ∈ p.children) : p.row < q.row := by
  have hq := (reach_line _ _ _ q h).2
  omega

theorem row_following (p q : Place) (h : q ∈ p.following) : p.row < q.row := by
  have hq := (reach_line _ _ _ q h).2
  have := p.node.size_pos
  omega

end Place

structure Cursor extends Place where
  above : List Place

namespace Cursor

def root (n : Node) : Cursor := ⟨⟨n, 0, [], []⟩, []⟩

def children (c : Cursor) : List Cursor :=
  c.toPlace.children.map fun p => ⟨p, c.toPlace :: c.above⟩

def following (c : Cursor) : List Cursor := c.toPlace.following.map fun p => ⟨p, c.above⟩

def parent? (c : Cursor) : Option Cursor :=
  match c.above with
  | [] => none
  | p :: above => some ⟨p, above⟩

def kind (c : Cursor) : NodeKind := c.node.kind

def namedChildren (c : Cursor) : List Cursor := c.children.filter (·.node.isNamed)

def namedFollowing (c : Cursor) : List Cursor := c.following.filter (·.node.isNamed)

def topmost (c : Cursor) : Place :=
  match c.above with
  | [] => c.toPlace
  | _ => ((c.toPlace :: c.above).dropLast.getLast?).getD c.toPlace

mutual

def walk (above : List Place) (row : Nat) (before after : List Node) : Node → List Cursor
  | .mk label children =>
    let place : Place := ⟨.mk label children, row, before, after⟩
    ⟨place, above⟩ :: walkLine (place :: above) (row + 1) [] children

def walkLine (above : List Place) (row : Nat) (before : List Node) : List Node → List Cursor
  | [] => []
  | n :: rest => walk above row before rest n ++ walkLine above (row + n.size) (n :: before) rest

end

def all (root : Node) : List Cursor := walk [] 0 [] [] root

end Cursor
end CodeAtlas.Syntax
